/-
Zones, mobility classes and watermarks of the physical memory manager.

* `ZoneLayout.new`: the four contiguous zones; `ZoneLayout.tiles_new` says that they tile
  `[0, pfnMax)` in index order and that a populated movable zone starts on a pageblock;
* `gfpZone`, `gfpMigratetype`: the flag bits of an allocation;
* `zoneWatermarkOk`: the gate a zone passes before it serves a request;
* `deriveZoneWatermarks`, `lowmemReserve`, `batchPages`: the thresholds derived from the
  managed page counts.

Page frame numbers and page counts are natural numbers. They are all bounded by the sum of
the region lengths, which construction checks against `u64`; a saturating operation is
written out only where a tunable can reach the bound.
-/
import Mathlib.Data.Fintype.Defs
import Oxide.DyadicBlock
import Oxide.Word

namespace Oxide.Buddy

variable {l : ZoneLayout} {pfn pfnMax : ℕ}

/-- The largest order of a block. -/
def MAX_ORDER : ℕ := 20
/-- The order of a pageblock. -/
def PAGEBLOCK_ORDER : ℕ := 9
def PAGEBLOCK_PAGES : ℕ := 512
/-- The end of a list. -/
def PFN_NULL : ℕ := 2 ^ 64 - 1
/-- The mark of a free page. -/
def POISON_MAGIC : ℕ := 0xDEADBEEFCAFEBABE
def MAX_CPUS : ℕ := 256

/-! ### Zone identities -/

/-- The memory zones, lowest first. -/
inductive ZoneType
  | dma
  | dma32
  | normal
  | movable
  deriving DecidableEq

namespace ZoneType

def index : ZoneType → ℕ
  | dma => 0
  | dma32 => 1
  | normal => 2
  | movable => 3

def all : List ZoneType := [dma, dma32, normal, movable]

instance : Fintype ZoneType where
  elems := ⟨all, by decide⟩
  complete z := by cases z <;> decide

end ZoneType

/-- Mobility classes, carried independently from the zone. -/
inductive MigrateType
  | unmovable
  | movable
  | reclaimable
  deriving DecidableEq

namespace MigrateType

def all : List MigrateType := [unmovable, movable, reclaimable]

/-- The classes to steal from, in order. -/
def fallbacks : MigrateType → List MigrateType
  | unmovable => [reclaimable, movable]
  | movable => [reclaimable, unmovable]
  | reclaimable => [unmovable, movable]

/-- Every class is the requested one or a fallback of it. -/
theorem eq_or_mem_fallbacks (req mt : MigrateType) : mt = req ∨ mt ∈ req.fallbacks := by
  cases req <;> cases mt <;> decide

theorem ne_of_mem_fallbacks {req mt : MigrateType} (h : mt ∈ req.fallbacks) : mt ≠ req := by
  cases req <;> cases mt <;> first | exact absurd h (by decide) | decide

end MigrateType

/-! ### Allocation flags -/

/-- The highest zone the flag bits permit, or `none` for a contradictory combination. -/
def gfpZone (flags : BitVec 32) : Option ZoneType :=
  match (flags &&& 0xf).toNat with
  | 0x0 => some .normal
  | 0x1 => some .dma
  | 0x2 => some .normal
  | 0x4 => some .dma32
  | 0x8 => some .normal
  | 0x9 => some .dma
  | 0xa => some .movable
  | 0xc => some .dma32
  | _ => none

/-- The mobility class of a request. -/
def gfpMigratetype (flags : BitVec 32) : Option MigrateType :=
  match (flags &&& 0x18).toNat with
  | 0x00 => some .unmovable
  | 0x08 => some .movable
  | 0x10 => some .reclaimable
  | _ => none

/-- Whether the flags earn the reserve discount. -/
def grantsMinReserve (flags : BitVec 32) : Bool := flags &&& 0x20 != 0

/-! ### Zone layout -/

/-- Where the zones are to end. -/
structure ZoneLimits where
  dmaEndPfn : ℕ
  dma32EndPfn : ℕ
  movableStartPfn : Option ℕ

/-- The x86_64 boundaries: the ISA bus-master limit and the 32-bit limit. -/
def ZoneLimits.archDefault (pfnMax : ℕ) : ZoneLimits where
  dmaEndPfn := min (16 * 1024 * 1024 / PAGE_SIZE_BYTES) pfnMax
  dma32EndPfn := min (2 ^ 32 / PAGE_SIZE_BYTES) pfnMax
  movableStartPfn := none

/-- The page frames of one zone. -/
structure ZoneSpan where
  startPfn : ℕ
  endPfn : ℕ
  deriving DecidableEq

namespace ZoneSpan

def spannedPages (s : ZoneSpan) : ℕ := s.endPfn - s.startPfn

def contains (s : ZoneSpan) (pfn : ℕ) : Bool := s.startPfn ≤ pfn && pfn < s.endPfn

theorem contains_iff {s : ZoneSpan} :
    s.contains pfn = true ↔ s.startPfn ≤ pfn ∧ pfn < s.endPfn := by
  simp [contains]

end ZoneSpan

/-- The spans of the four zones. -/
structure ZoneLayout where
  span : ZoneType → ZoneSpan

namespace ZoneLayout

/-- The movable boundary, rounded up to a pageblock and clipped to the end of memory. -/
def movableStart (limits : ZoneLimits) (pfnMax : ℕ) : ℕ :=
  min ((limits.movableStartPfn.bind fun start =>
    if start + (PAGEBLOCK_PAGES - 1) < 2 ^ 64 then
      some ((start + (PAGEBLOCK_PAGES - 1)) / PAGEBLOCK_PAGES * PAGEBLOCK_PAGES)
    else none).getD pfnMax) pfnMax

/-- The layout of the frames below `pfnMax`. -/
def new (limits : ZoneLimits) (pfnMax : ℕ) : ZoneLayout :=
  let ms := movableStart limits pfnMax
  -- each zone ends at its cap, or where the zone below ended if that is higher
  let dmaEnd := max (min (min limits.dmaEndPfn pfnMax) ms) 0
  let dma32End := max (min (min limits.dma32EndPfn pfnMax) ms) dmaEnd
  let normalEnd := max ms dma32End
  let movableEnd := max pfnMax normalEnd
  ⟨fun
    | .dma => ⟨0, dmaEnd⟩
    | .dma32 => ⟨dmaEnd, dma32End⟩
    | .normal => ⟨dma32End, normalEnd⟩
    | .movable => ⟨normalEnd, movableEnd⟩⟩

/-- The first zone whose span contains `pfn`. -/
def indexOf (l : ZoneLayout) (pfn : ℕ) : Option ZoneType :=
  if (l.span .dma).contains pfn then some .dma
  else if (l.span .dma32).contains pfn then some .dma32
  else if (l.span .normal).contains pfn then some .normal
  else if (l.span .movable).contains pfn then some .movable
  else none

/-- Zone slot owning `pfn`, with a terminal slot for malformed callers. -/
def zi (l : ZoneLayout) (pfn : ℕ) : ZoneType := (l.indexOf pfn).getD .movable

/-- The zones are contiguous intervals that cover `[0, pfnMax)`. -/
structure Tiles (l : ZoneLayout) (pfnMax : ℕ) : Prop where
  start : (l.span .dma).startPfn = 0
  dma : (l.span .dma).startPfn ≤ (l.span .dma).endPfn
  dma_dma32 : (l.span .dma).endPfn = (l.span .dma32).startPfn
  dma32 : (l.span .dma32).startPfn ≤ (l.span .dma32).endPfn
  dma32_normal : (l.span .dma32).endPfn = (l.span .normal).startPfn
  normal : (l.span .normal).startPfn ≤ (l.span .normal).endPfn
  normal_movable : (l.span .normal).endPfn = (l.span .movable).startPfn
  movable : (l.span .movable).startPfn ≤ (l.span .movable).endPfn
  top : (l.span .movable).endPfn = pfnMax
  /-- A populated movable zone starts on a pageblock. -/
  pageblock : (l.span .movable).startPfn = pfnMax ∨ PAGEBLOCK_PAGES ∣ (l.span .movable).startPfn

theorem tiles_new (limits : ZoneLimits) (pfnMax : ℕ) : (new limits pfnMax).Tiles pfnMax := by
  have hms : movableStart limits pfnMax = pfnMax ∨
      PAGEBLOCK_PAGES ∣ movableStart limits pfnMax := by
    unfold movableStart
    rcases Nat.le_total pfnMax ((limits.movableStartPfn.bind fun start =>
      if start + (PAGEBLOCK_PAGES - 1) < 2 ^ 64 then
        some ((start + (PAGEBLOCK_PAGES - 1)) / PAGEBLOCK_PAGES * PAGEBLOCK_PAGES)
      else none).getD pfnMax) with h | h
    · exact .inl (Nat.min_eq_right h)
    rw [Nat.min_eq_left h]
    cases hs : limits.movableStartPfn with
    | none => exact .inl rfl
    | some =>
    rw [Option.bind_some]
    split
    · exact .inr (Dvd.intro_left _ rfl)
    · exact .inl rfl
  have hle : movableStart limits pfnMax ≤ pfnMax := Nat.min_le_right _ _
  have hnormal : ((new limits pfnMax).span .movable).startPfn = movableStart limits pfnMax := by
    simp only [new]
    omega
  refine ⟨rfl, Nat.zero_le _, rfl, ?_, rfl, ?_, rfl, ?_, ?_, hnormal ▸ hms⟩
  all_goals simp only [new]; omega

variable (h : l.Tiles pfnMax)
include h

/-- In a tiling, the zone of a page is the one whose span contains it. -/
theorem Tiles.indexOf_eq (pfn : ℕ) (z : ZoneType) :
    l.indexOf pfn = some z ↔ (l.span z).startPfn ≤ pfn ∧ pfn < (l.span z).endPfn := by
  obtain ⟨h0, h1, h2, h3, h4, h5, h6, h7, h8, -⟩ := h
  simp only [indexOf, ZoneSpan.contains_iff]
  split_ifs <;> cases z <;> simp only [Option.some.injEq, reduceCtorEq, true_iff, false_iff] <;>
    omega

theorem Tiles.exists_indexOf (hp : pfn < pfnMax) : ∃ z, l.indexOf pfn = some z := by
  obtain ⟨h0, h1, h2, h3, h4, h5, h6, h7, h8, -⟩ := h
  simp only [indexOf, ZoneSpan.contains_iff]
  split_ifs
  · exact ⟨_, rfl⟩
  · exact ⟨_, rfl⟩
  · exact ⟨_, rfl⟩
  · exact ⟨_, rfl⟩
  · omega

theorem Tiles.indexOf_zi (hp : pfn < pfnMax) : l.indexOf pfn = some (l.zi pfn) := by
  obtain ⟨z, hz⟩ := h.exists_indexOf hp
  rw [zi, hz, Option.getD_some]

/-- In a tiling, `zi` is decided by the span. -/
theorem Tiles.zi_eq (hp : pfn < pfnMax) (z : ZoneType) :
    l.zi pfn = z ↔ (l.span z).startPfn ≤ pfn ∧ pfn < (l.span z).endPfn := by
  rw [← h.indexOf_eq, h.indexOf_zi hp, Option.some_inj]

end ZoneLayout

/-- Populated zones in decreasing index, the order an allocation walks them. -/
def Zonelist.build (populated : ZoneType → Bool) : List ZoneType :=
  ZoneType.all.reverse.filter populated

/-- The entries an allocation may use: at or below its highest zone. -/
def Zonelist.walk (entries : List ZoneType) (highest : ZoneType) : List ZoneType :=
  entries.filter fun z => z.index ≤ highest.index

/-! ### Watermarks and reserves -/

/-- The watermark a request is held to. -/
inductive AllocWmark
  | low
  | min
  | minReserve
  | minNonBlock
  deriving DecidableEq

/-- The mark of a request that is tried again. -/
def slowpathWmark (grants canBlock : Bool) : AllocWmark :=
  if !grants then .min else if canBlock then .minReserve else .minNonBlock

/-- The watermarks of a zone, in pages. -/
structure ZoneWatermarks where
  min : ℕ := 0
  low : ℕ := 0
  high : ℕ := 0
  promo : ℕ := 0
  deriving DecidableEq

/-- The base of a mark. -/
def ZoneWatermarks.mark (w : ZoneWatermarks) : AllocWmark → ℕ
  | .low => w.low
  | _ => w.min

/-- How far below the mark the caller's class may go. -/
def effectiveMin (mark : ℕ) : AllocWmark → ℕ
  | .low | .min => mark
  | .minReserve => mark - mark / 2
  | .minNonBlock => (mark - mark / 2) - (mark - mark / 2) / 4

/-- The gate for single pages. -/
def zoneWatermarkOkPages (mark : ℕ) (wmark : AllocWmark) (reserve free : ℕ) : Bool :=
  satAdd (effectiveMin mark wmark) reserve < free

/-- Pages in an area given by its block count per order. -/
def freePages (area : ℕ → ℕ) : ℕ := ((List.range (MAX_ORDER + 1)).map fun o => area o <<< o).sum

/-- The gate: enough pages, and a block. -/
def zoneWatermarkOk (order mark : ℕ) (wmark : AllocWmark) (reserve : ℕ) (area : ℕ → ℕ) : Bool :=
  zoneWatermarkOkPages mark wmark reserve (freePages area - (1 <<< order - 1)) &&
    (order == 0 || (List.range' order (MAX_ORDER + 1 - order)).any fun o => decide (0 < area o))

/-- What an administrator may set. -/
structure WatermarkTunables where
  minFreeKbytes : Option ℕ
  watermarkScaleFactor : ℕ
  deriving DecidableEq

/-- The binary search of `integer_sqrt`, with its remaining rounds. -/
def integerSqrtLoop (value : ℕ) : ℕ → ℕ → ℕ → ℕ → ℕ
  | 0, _, _, answer => answer
  | n + 1, left, right, answer =>
    if left ≤ right then
      let middle := left + (right - left) / 2
      if middle ≤ value / middle then integerSqrtLoop value n (middle + 1) right middle
      else integerSqrtLoop value n left (middle - 1) answer
    else answer

/-- The integer square root. -/
def integerSqrt (value : ℕ) : ℕ :=
  if value < 2 then value else integerSqrtLoop value 64 1 (min value (2 ^ 32 - 1)) 1

def defaultMinFreeKbytes (managedPages pageBytes : ℕ) : ℕ :=
  max 128 (min (integerSqrt (satMul (satMul managedPages pageBytes / 1024) 16))
    262144)

/-- The watermarks of one zone. -/
def deriveZoneWatermarks (managedPages totalManagedPages : ℕ) (tunables : WatermarkTunables)
    (pageBytes : ℕ) (capMin : Bool) : ZoneWatermarks :=
  if managedPages = 0 ∨ totalManagedPages = 0 ∨ pageBytes = 0 then {} else
  let minKbytes := tunables.minFreeKbytes.getD (defaultMinFreeKbytes totalManagedPages pageBytes)
  let totalMinPages := satMul minKbytes 1024 / pageBytes
  let proportional := satMul totalMinPages managedPages / totalManagedPages
  let scale := satMul managedPages tunables.watermarkScaleFactor / 10000
  let gap := max (proportional / 4) scale
  let min := if capMin then max 32 (Min.min (managedPages / 1024) 128) else proportional
  { min := min
    low := satAdd min gap
    high := satAdd min (satMul gap 2)
    promo := satAdd min (satMul gap 3) }

def defaultLowmemReserveRatio : ZoneType → ℕ
  | .dma => 256
  | .dma32 => 256
  | .normal => 32
  | .movable => 0

/-- What zone `i` keeps back from a class that may use zones up to `j`. -/
def lowmemReserve (managed : ZoneType → ℕ) (i j : ZoneType) : ℕ :=
  if defaultLowmemReserveRatio i = 0 ∨ managed i = 0 then 0
  else
    ((ZoneType.all.filter fun z => i.index < z.index ∧ z.index ≤ j.index).map managed).sum /
      defaultLowmemReserveRatio i

/-- The pages one refill asks for. -/
def batchPages (managed : ℕ) : ℕ :=
  let batch := min (managed >>> 12) (256 * 1024 / PAGE_SIZE_BYTES)
  if batch ≤ 1 then 1 else max (2 ^ Nat.log2 (batch + batch / 2) - 1) 1

/-- A batch is always smaller than a pageblock. -/
theorem batchPages_lt (managed : ℕ) : batchPages managed < 2 ^ PAGEBLOCK_ORDER := by
  unfold batchPages
  have hle : min (managed >>> 12) (256 * 1024 / PAGE_SIZE_BYTES) ≤ 64 := Nat.min_le_right _ _
  generalize min (managed >>> 12) (256 * 1024 / PAGE_SIZE_BYTES) = batch at hle
  dsimp only
  split
  · decide
  · have hpow : 2 ^ Nat.log2 (batch + batch / 2) ≤ batch + batch / 2 := Nat.log2_self_le (by omega)
    have : 2 ^ PAGEBLOCK_ORDER = 512 := by decide
    omega

end Oxide.Buddy
