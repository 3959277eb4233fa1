/-
The physical memory manager: zones of buddy lists behind per-CPU pagesets.

Order-0 pages are cached in singly linked pagesets, one per CPU, zone and class, with their
own bitmap and counters; larger blocks go straight to the buddy lists.

* `initZoned`: construction from a list of usable regions;
* `allocInnerZoned`: one walk of the zonelist: pageset, refill, global lists, drain;
* `free`, `drainPcpBelow`, `reserveEarlyInner`, `refreshWatermarks`.

The CPUs a step runs on are arguments: the allocator pins a CPU separately for each pageset it
touches.
-/
import Oxide.BuddyMoves

namespace Oxide.Buddy

open DyadicBlock Function

/-- The errors of the manager. -/
inductive Error
  | invalidOrder
  | noMem
  | outOfRange
  | corrupt
  | overlap
  deriving DecidableEq

abbrev Cpu := Fin MAX_CPUS

/-- Which pageset: CPU, zone, mobility class. -/
structure PcpKey where
  cpu : Cpu
  zone : ZoneType
  mt : MigrateType
  deriving DecidableEq

/-! ### Pagesets -/

/-- A pageset: its first page and length. -/
structure PcpList where
  head : ℕ
  count : ℕ
  deriving DecidableEq

namespace PcpList

def empty : PcpList := ⟨PFN_NULL, 0⟩

/-- Put a page in front. -/
def push (l : PcpList) (a : FreeArea) (pfn : ℕ) : PcpList × FreeArea :=
  (⟨pfn, l.count + 1⟩, a.stampBlock pfn 0 l.head PFN_NULL)

/-- Take the first page, with the checks. -/
def pop (l : PcpList) (a : FreeArea) : Except Fault (Option (ℕ × PcpList)) :=
  if l.count = 0 then .ok none else do
    let next := a.next l.head
    kassert (l.head < a.pfnMax) "pmm pcp head out of range"
    kassert (next = PFN_NULL ∨ next < a.pfnMax) "pmm pcp next out of range"
    kassert (next ≠ l.head) "pmm pcp self link"
    return some (l.head, ⟨next, l.count - 1⟩)

/-- Move `n` pages to the list `out`. -/
def takeLoop : ℕ → PcpList → PcpList → FreeArea → Except Fault (PcpList × PcpList × FreeArea)
  | 0, l, out, a => .ok (l, out, a)
  | n + 1, l, out, a => do
    match ← l.pop a with
    | none => .error (.expect "pcp count/head mismatch")
    | some (pfn, l) =>
      let (out, a) := out.push a pfn
      takeLoop n l out a

/-- Take pages off, up to `limit`. -/
def take (l : PcpList) (a : FreeArea) (limit : ℕ) :
    Except Fault (PcpList × PcpList × FreeArea) :=
  takeLoop (min l.count limit) l empty a

end PcpList

/-- The thresholds of one zone that the pageset path reads without the buddy lock. -/
structure PcpZoneConfig where
  low : ℕ
  min : ℕ
  reserve : ZoneType → ℕ
  batch : ℕ

namespace PcpZoneConfig

/-- The thresholds of one zone. -/
def new (wmark : ZoneWatermarks) (reserve : ZoneType → ℕ) (managed : ℕ) : PcpZoneConfig :=
  ⟨wmark.low, wmark.min, reserve, batchPages managed⟩

def mark (c : PcpZoneConfig) : AllocWmark → ℕ
  | .low => c.low
  | _ => c.min

/-- The pageset size above which a free drains a batch. -/
def high (c : PcpZoneConfig) (online : ℕ) : ℕ :=
  Max.max (c.low / Max.max online 1) (satMul (Max.max c.batch 1) 4)

end PcpZoneConfig

/-- The memory manager. -/
structure Pmm where
  area : FreeArea
  /-- The populated zones in decreasing index. -/
  zonelist : List ZoneType
  managed : ZoneType → ℕ
  present : ZoneType → ℕ
  spanned : ZoneType → ℕ
  reserve : ZoneType → ZoneType → ℕ
  wmark : ZoneType → ZoneWatermarks
  tunables : Option WatermarkTunables
  allocated : ℕ
  reserved : ℕ
  initialFree : ℕ
  allocEvents : ℕ
  allocEventPages : ℕ
  freeEvents : ℕ
  freeEventPages : ℕ
  pcpBitmap : ℕ → Bool
  hibernateForbidden : ℕ → Bool
  pcp : PcpKey → PcpList
  /-- Free pages of the zone, cached ones included. -/
  zoneFree : ZoneType → ℕ
  pcpFree : ZoneType → ℕ
  pcpZone : ZoneType → PcpZoneConfig
  pcpAllocEvents : ℕ
  pcpAllocEventPages : ℕ
  pcpFreeEvents : ℕ
  pcpFreeEventPages : ℕ

namespace Pmm

variable (s : Pmm)

/-! ### Observations -/

/-- Free pages, cached ones included. -/
def freePages : ℕ := (ZoneType.all.map s.zoneFree).sum

/-- Pages in use, without cached ones. -/
def allocatedPages : ℕ := s.allocated - (ZoneType.all.map s.pcpFree).sum

/-! ### Counters -/

section

variable (zone : ZoneType)

def addZoneFree (n : ℕ) : Pmm :=
  { s with zoneFree := update s.zoneFree zone (s.zoneFree zone + n) }

def subZoneFree (n : ℕ) : Except Fault Pmm := do
  let v ← counterSub (s.zoneFree zone) n "zone_free"
  return { s with zoneFree := update s.zoneFree zone v }

def addPcpFree (n : ℕ) : Pmm :=
  { s with pcpFree := update s.pcpFree zone (s.pcpFree zone + n) }

def subPcpFree (n : ℕ) : Except Fault Pmm := do
  let v ← counterSub (s.pcpFree zone) n "pcp_free"
  return { s with pcpFree := update s.pcpFree zone v }

end

def subAllocated (n : ℕ) : Except Fault Pmm := do
  let v ← counterSub s.allocated n "allocated"
  return { s with allocated := v }

variable {s}

theorem subZoneFree_of_le {zone : ZoneType} {n : ℕ} (h : n ≤ s.zoneFree zone) :
    s.subZoneFree zone n =
      .ok { s with zoneFree := update s.zoneFree zone (s.zoneFree zone - n) } := by
  rw [subZoneFree, counterSub_of_le h]
  rfl

theorem subPcpFree_of_le {zone : ZoneType} {n : ℕ} (h : n ≤ s.pcpFree zone) :
    s.subPcpFree zone n = .ok { s with pcpFree := update s.pcpFree zone (s.pcpFree zone - n) } := by
  rw [subPcpFree, counterSub_of_le h]
  rfl

theorem subAllocated_of_le {n : ℕ} (h : n ≤ s.allocated) :
    s.subAllocated n = .ok { s with allocated := s.allocated - n } := by
  rw [subAllocated, counterSub_of_le h]
  rfl

variable (s)

def notePcpAlloc : Pmm :=
  { s with
    pcpAllocEvents := s.pcpAllocEvents + 1, pcpAllocEventPages := s.pcpAllocEventPages + 1 }

/-- Refresh what is derived from the managed counts. -/
def recomputeDerived : Pmm :=
  let total := (ZoneType.all.map s.managed).sum
  { s with
    reserve := lowmemReserve s.managed
    wmark := match s.tunables with
      | none => s.wmark
      | some t => fun z =>
        deriveZoneWatermarks (s.managed z) total t PAGE_SIZE_BYTES (decide (z = .movable)) }

/-- Copy the thresholds to where the pageset path reads them. -/
def refreshPcpZones : Pmm :=
  { s with pcpZone := fun z => PcpZoneConfig.new (s.wmark z) (s.reserve z) (s.managed z) }

/-! ### Pageset bitmap and checks -/

/-- Mark a page as cached. -/
def pcpMark (pfn : ℕ) : Except Fault Pmm := do
  kassert (s.pcpBitmap pfn = false) "pmm double free in per-cpu pageset"
  return { s with pcpBitmap := update s.pcpBitmap pfn true }

/-- A cached page is cached no more. -/
def pcpUnmark (pfn : ℕ) : Except Fault Pmm := do
  kassert (s.pcpBitmap pfn = true) "pmm per-cpu pageset bitmap missing page"
  return { s with pcpBitmap := update s.pcpBitmap pfn false }

variable {s}

theorem pcpMark_of_clear {pfn : ℕ} (h : s.pcpBitmap pfn = false) :
    s.pcpMark pfn = .ok { s with pcpBitmap := update s.pcpBitmap pfn true } := by
  rw [pcpMark, kassert_true h]
  rfl

theorem pcpUnmark_of_marked {pfn : ℕ} (h : s.pcpBitmap pfn = true) :
    s.pcpUnmark pfn = .ok { s with pcpBitmap := update s.pcpBitmap pfn false } := by
  rw [pcpUnmark, kassert_true h]
  rfl

variable (s)

/-- The checks on a page off a pageset. -/
def verifyPcpNode (pfn : ℕ) (zone : ZoneType) (mt : MigrateType) : Except Fault Unit := do
  kassert (s.area.layout.indexOf pfn = some zone) "pmm pcp page in wrong zone"
  kassert (s.area.migratetype pfn = mt) "pmm pcp page wrong migratetype"
  kassert ((s.area.mem pfn).poison = POISON_MAGIC) "pmm poison mismatch on pcp alloc"
  kassert ((s.area.mem pfn).order = 0) "pmm pcp page has nonzero order"

/-- The same, with its mark. -/
def verifyPcpPage (pfn : ℕ) (zone : ZoneType) (mt : MigrateType) : Except Fault Unit := do
  s.verifyPcpNode pfn zone mt
  kassert (s.pcpBitmap pfn = true) "pmm pcp list page absent from bitmap"

/-- The gate of the pageset path. -/
def pcpWatermarkOk (zone highest : ZoneType) (wmark : AllocWmark) : Bool :=
  zoneWatermarkOkPages ((s.pcpZone zone).mark wmark) wmark ((s.pcpZone zone).reserve highest)
    (s.zoneFree zone)

/-- The buddy lists' own gate; for a single page the cached ones count as well. -/
def zoneGate (zone highest : ZoneType) (order : ℕ) (wmark : AllocWmark) : Bool :=
  zoneWatermarkOk order ((s.wmark zone).mark wmark) wmark (s.reserve zone highest) fun o =>
    s.area.freeArea zone o + if order = 0 ∧ o = 0 then s.pcpFree zone else 0

/-! ### Draining -/

/-- Clear the bitmap bits of a detached batch, page by page, onto a private list. -/
def releaseLoop (zone : ZoneType) (mt : MigrateType) : ℕ → PcpList → PcpList → Pmm →
    Except Fault (PcpList × Pmm)
  | 0, _, priv, s => .ok (priv, s)
  | n + 1, list, priv, s => do
    match ← list.pop s.area with
    | none => return (priv, s)
    | some (pfn, list) =>
      s.verifyPcpPage pfn zone mt
      let s ← s.pcpUnmark pfn
      let (priv, a) := priv.push s.area pfn
      releaseLoop zone mt n list priv { s with area := a }

/-- Detach up to `limit` pages from a pageset. -/
def takeBatch (key : PcpKey) (limit : ℕ) : Except Fault (PcpList × Pmm) := do
  let (l, out, a) ← (s.pcp key).take s.area limit
  releaseLoop key.zone key.mt out.count out .empty
    { s with area := a, pcp := update s.pcp key l }

/-- Return a detached list to the buddy lists. -/
def drainLoop (zone : ZoneType) (mt : MigrateType) : ℕ → PcpList → Pmm → Except Fault Pmm
  | 0, _, s => .ok s
  | n + 1, list, s => do
    match ← list.pop s.area with
    | none => return s
    | some (pfn, list) =>
      s.verifyPcpNode pfn zone mt
      let a ← s.area.returnToBuddy pfn 0
      drainLoop zone mt n list { s with area := a }

/-- Return a private list to the buddy lists. -/
def drainPcpList (zone : ZoneType) (mt : MigrateType) (list : PcpList) : Except Fault Pmm := do
  let s ← drainLoop zone mt list.count list s
  s.subAllocated list.count

/-- Drain one pageset. -/
def drainPcpKey (key : PcpKey) : Except Fault (Bool × Pmm) := do
  let (list, s) ← s.takeBatch key (2 ^ 64 - 1)
  if list.count = 0 then return (false, s)
  let s ← s.subPcpFree key.zone list.count
  let s ← s.drainPcpList key.zone key.mt list
  return (true, s)

def drainKeys : List PcpKey → Pmm → Except Fault (Bool × Pmm)
  | [], s => .ok (false, s)
  | key :: keys, s => do
    let (some1, s) ← s.drainPcpKey key
    let (some2, s) ← drainKeys keys s
    return (some1 || some2, s)

/-- The pagesets of one zone, in the order they are drained. -/
def keysOf (zone : ZoneType) : List PcpKey :=
  MigrateType.all.flatMap fun mt => (List.finRange MAX_CPUS).map fun cpu => ⟨cpu, zone, mt⟩

/-- Drain the pagesets a request may use. -/
def drainPcpBelow (highest : ZoneType) : Except Fault (Bool × Pmm) :=
  drainKeys ((Zonelist.walk s.zonelist highest).flatMap keysOf) s

/-! ### Order-0 allocation -/

/-- A page from a pageset. -/
def popCurrentPcp (key : PcpKey) : Except Fault (Option ℕ × Pmm) := do
  match ← (s.pcp key).pop s.area with
  | none => return (none, s)
  | some (pfn, l) =>
    s.verifyPcpPage pfn key.zone key.mt
    let s ← s.pcpUnmark pfn
    let s := { s with pcp := update s.pcp key l }
    let s ← s.subPcpFree key.zone 1
    let s ← s.subZoneFree key.zone 1
    return (some pfn, s.notePcpAlloc)

/-- Stage up to `n` pages from the global lists. -/
def refillLoop (zone highest : ZoneType) (wmark : AllocWmark) (mt : MigrateType) :
    ℕ → PcpList → Pmm → Except Fault (PcpList × Pmm)
  | 0, refill, s => .ok (refill, s)
  | n + 1, refill, s =>
    if s.zoneGate zone highest 0 wmark then do
      match ← s.area.takeBlock zone 0 mt with
      | (none, _) => return (refill, s)
      | (some pfn, a) =>
        a.verifyPoison pfn
        let (refill, a) := refill.push a pfn
        refillLoop zone highest wmark mt n refill
          { s with area := a, allocated := s.allocated + 1 }
    else .ok (refill, s)

/-- Move the staged pages to a pageset. -/
def fillLoop (key : PcpKey) : ℕ → PcpList → Pmm → Except Fault Pmm
  | 0, _, s => .ok s
  | n + 1, refill, s => do
    match ← refill.pop s.area with
    | none => return s
    | some (cached, refill) =>
      let s ← s.pcpMark cached
      let (l, a) := (s.pcp key).push s.area cached
      fillLoop key n refill { s with area := a, pcp := update s.pcp key l }

/-- Refill a pageset, and take a page. -/
def refillCurrentPcp (key : PcpKey) (highest : ZoneType) (wmark : AllocWmark) :
    Except Fault (Option ℕ × Pmm) := do
  let wanted := max (s.pcpZone key.zone).batch 1
  let (refill, s) ← refillLoop key.zone highest wmark key.mt wanted .empty s
  let count := refill.count
  if count = 0 then return (none, s)
  match ← refill.pop s.area with
  | none => .error (.expect "pcp refill lost its head")
  | some (pfn, refill) =>
    let s ← fillLoop key refill.count refill s
    let s := s.addPcpFree key.zone (count - 1)
    let s ← s.subZoneFree key.zone 1
    s.verifyPcpNode pfn key.zone key.mt
    return (some pfn, s.notePcpAlloc)

/-- The CPUs an order-0 attempt finds itself on, per zone it reaches. -/
structure Pins where
  pop : ZoneType → Cpu
  refill : ZoneType → Cpu

/-- The pageset path, zone by zone. -/
def allocFromPcp (highest : ZoneType) (wmark : AllocWmark) (mt : MigrateType) (pins : Pins) :
    List ZoneType → Pmm → Except Fault (Option ℕ × Pmm)
  | [], s => .ok (none, s)
  | zone :: zones, s =>
    if s.pcpWatermarkOk zone highest wmark then do
      match ← s.popCurrentPcp ⟨pins.pop zone, zone, mt⟩ with
      | (some pfn, s) => return (some pfn, s)
      | (none, s) =>
        match ← s.refillCurrentPcp ⟨pins.refill zone, zone, mt⟩ highest wmark with
        | (some pfn, s) => return (some pfn, s)
        | (none, s) => allocFromPcp highest wmark mt pins zones s
    else allocFromPcp highest wmark mt pins zones s

/-! ### Global allocation -/

/-- Zero a block that is handed out. -/
def zeroAllocation (pfn order : ℕ) : Pmm :=
  { s with area := { s.area with
      mem := fun q => if Covers order pfn q then .zero else s.area.mem q } }

/-- The first zone of the walk that passes its gate and has a block. -/
def takeFromZones (order : ℕ) (highest : ZoneType) (wmark : AllocWmark) (mt : MigrateType) :
    List ZoneType → Except Fault (Option (ℕ × ZoneType × FreeArea))
  | [] => .ok none
  | zone :: zones =>
    if s.zoneGate zone highest order wmark then do
      match ← s.area.takeBlock zone order mt with
      | (some pfn, a) => return some (pfn, zone, a)
      | (none, _) => takeFromZones order highest wmark mt zones
    else takeFromZones order highest wmark mt zones

/-- One walk of the global lists. -/
def allocGlobal (order : ℕ) (highest : ZoneType) (wmark : AllocWmark) (mt : MigrateType) :
    Except Fault (Option ℕ × Pmm) := do
  match ← s.takeFromZones order highest wmark mt (Zonelist.walk s.zonelist highest) with
  | none => return (none, s)
  | some (pfn, zone, a) =>
    a.verifyPoison pfn
    let s := { s with
      area := a
      allocated := s.allocated + 2 ^ order
      allocEvents := s.allocEvents + 1
      allocEventPages := s.allocEventPages + 2 ^ order }
    let s ← s.subZoneFree zone (2 ^ order)
    return (some pfn, s.zeroAllocation pfn order)

/-- The walk, and once more after the eligible pagesets have been drained. -/
def allocGlobalDraining (order : ℕ) (highest : ZoneType) (wmark : AllocWmark)
    (mt : MigrateType) : Except Fault (Except Error ℕ × Pmm) := do
  match ← s.allocGlobal order highest wmark mt with
  | (some pfn, s) => return (.ok pfn, s)
  | (none, s) =>
    match ← s.drainPcpBelow highest with
    | (false, s) => return (.error .noMem, s)
    | (true, s) =>
      match ← s.allocGlobal order highest wmark mt with
      | (some pfn, s) => return (.ok pfn, s)
      | (none, s) => return (.error .noMem, s)

/-- Walk the fallback order from the highest permitted zone downward. -/
def allocInnerZoned (order : ℕ) (highest : ZoneType) (wmark : AllocWmark) (mt : MigrateType)
    (pins : Pins) : Except Fault (Except Error ℕ × Pmm) :=
  if MAX_ORDER < order then .ok (.error .invalidOrder, s)
  else if order = 0 then do
    match ← allocFromPcp highest wmark mt pins (Zonelist.walk s.zonelist highest) s with
    | (some pfn, s) => return (.ok pfn, s.zeroAllocation pfn order)
    | (none, s) => s.allocGlobalDraining order highest wmark mt
  else s.allocGlobalDraining order highest wmark mt

/-! ### Freeing -/

/-- Every order's bit that would cover the page is clear. -/
def checkNotFree (pfn : ℕ) : List ℕ → Except Fault Unit
  | [] => .ok ()
  | o :: os => do
    kassert (s.area.bitmaps o (pfn >>> o) = false) "pmm double free detected by bitmap"
    checkNotFree pfn os

/-- Free a page to its pageset. -/
def freeToPcp (pfn : ℕ) (cpu : Cpu) (online : ℕ) : Except Fault Pmm := do
  match s.area.layout.indexOf pfn with
  | none => .error (.kassert "pmm pcp free pfn outside zone layout")
  | some zone =>
    let mt := s.area.migratetype pfn
    s.checkNotFree pfn (FreeArea.ordersFrom 0)
    let high := (s.pcpZone zone).high online
    let batch := max (s.pcpZone zone).batch 1
    let key : PcpKey := ⟨cpu, zone, mt⟩
    let s ← s.pcpMark pfn
    let (l, a) := (s.pcp key).push s.area pfn
    let s := { s with area := a, pcp := update s.pcp key l }
    let (drain, s) ← (if high < l.count then s.takeBatch key batch else .ok (.empty, s))
    let s := s.addZoneFree zone 1
    let s := s.addPcpFree zone 1
    let s ← s.subPcpFree zone drain.count
    let s := { s with
      pcpFreeEvents := s.pcpFreeEvents + 1, pcpFreeEventPages := s.pcpFreeEventPages + 1 }
    if drain.count = 0 then return s
    s.drainPcpList zone mt drain

/-- Free a block. -/
def free (pfn order : ℕ) (cpu : Cpu) (online : ℕ) : Except Fault Pmm := do
  kassert (order ≤ MAX_ORDER) "pmm free invalid order"
  kassert (pfn < s.area.pfnMax) "pmm free pfn out of range"
  kassert (pfn &&& (2 ^ order - 1) = 0) "pmm free pfn misaligned for order"
  if order = 0 then s.freeToPcp pfn cpu online
  else
    match s.area.layout.indexOf pfn with
    | none => .error (.kassert "pmm free pfn outside zone layout")
    | some zone =>
      s.checkNotFree pfn (FreeArea.ordersFrom order)
      let a ← s.area.returnToBuddy pfn order
      let s := { s with area := a }
      let s ← s.subAllocated (2 ^ order)
      let s := { s with
        freeEvents := s.freeEvents + 1, freeEventPages := s.freeEventPages + 2 ^ order }
      return s.addZoneFree zone (2 ^ order)

/-! ### Reservation -/

/-- The page is on a global free list. -/
def globallyFree (pfn : ℕ) : Bool := (s.area.containingOrder pfn).isSome

/-- Keep a page out of hibernation images. -/
def hibernateForbid (nosave : Bool) (pfn : ℕ) : Pmm :=
  if nosave then { s with hibernateForbidden := update s.hibernateForbidden pfn true }
  else s

/-- Take the pages `p ..< p + n` that are still free. -/
def reserveLoop (nosave : Bool) : ℕ → ℕ → Pmm → Except Fault Pmm
  | 0, _, s => .ok s
  | n + 1, p, s =>
    match s.area.containingOrder p with
    | none => reserveLoop nosave n (p + 1) (s.hibernateForbid nosave p)
    | some o => do
      let zone := s.area.zi (blockOf o p)
      let a ← s.area.detachPage p o
      let managed ← counterSub (s.managed zone) 1 "managed"
      let s := { s with
        area := a
        allocated := s.allocated + 1
        reserved := s.reserved + 1
        managed := update s.managed zone managed }
      let s := s.hibernateForbid nosave p
      let s ← s.subZoneFree zone 1
      reserveLoop nosave n (p + 1) s

/-- Reserve the free pages of a range. -/
def reserveEarlyInner (start len : ℕ) (nosave exact : Bool) :
    Except Fault (Except Error Unit × Pmm) :=
  if 2 ^ 64 ≤ start + len then .ok (.error .outOfRange, s)
  else if s.area.pfnMax < start + len then .ok (.error .outOfRange, s)
  else if exact && !(List.range' start len).all s.globallyFree then .ok (.error .overlap, s)
  else do
    let s ← reserveLoop nosave len start s
    return (.ok (), s.recomputeDerived.refreshPcpZones)

/-- Re-derive the watermarks from new tunables. -/
def refreshWatermarks (tunables : WatermarkTunables) : Pmm :=
  { s with tunables := some tunables }.recomputeDerived.refreshPcpZones

/-! ### Construction -/

/-- A range of usable memory. -/
structure UsableRegion where
  startPfn : ℕ
  lenPfn : ℕ
  deriving DecidableEq

namespace UsableRegion

def endPfn (r : UsableRegion) : ℕ := r.startPfn + r.lenPfn

/-- Two non-empty regions share a page. -/
def overlaps (r r' : UsableRegion) : Bool :=
  r.lenPfn ≠ 0 && r'.lenPfn ≠ 0 && r.startPfn < r'.endPfn && r'.startPfn < r.endPfn

end UsableRegion

/-- The end of memory and the number of pages, unless an addition overflows. -/
def measure : List UsableRegion → ℕ → ℕ → Option (ℕ × ℕ)
  | [], pfnMax, total => some (pfnMax, total)
  | r :: rs, pfnMax, total =>
    if 2 ^ 64 ≤ r.endPfn then none
    else if 2 ^ 64 ≤ total + r.lenPfn then none
    else measure rs (if pfnMax < r.endPfn then r.endPfn else pfnMax) (total + r.lenPfn)

/-- Two of the regions overlap. -/
def anyOverlap : List UsableRegion → Bool
  | [] => false
  | r :: rs => rs.any r.overlaps || anyOverlap rs

/-- What seeding changes: the lists, and the pages managed and present in each zone. -/
structure Seeding where
  area : FreeArea
  managed : ZoneType → ℕ
  present : ZoneType → ℕ

/-- Seed `[start, stop)`, zone by zone. -/
def seedRange (start stop : ℕ) : List ZoneType → Seeding → Except Fault Seeding
  | [], t => .ok t
  | zone :: zones, t =>
    let lo := max start (t.area.layout.span zone).startPfn
    let hi := min stop (t.area.layout.span zone).endPfn
    if lo < hi then do
      let (a, pages) ← FreeArea.seedWithinZone zone hi (hi - lo) lo 0 t.area
      seedRange start stop zones
        { area := a
          managed := update t.managed zone (t.managed zone + pages)
          present := update t.present zone (t.present zone + pages) }
    else seedRange start stop zones t

/-- Seed one region after the other. -/
def seedRegions : List UsableRegion → Seeding → Except Fault Seeding
  | [], t => .ok t
  | r :: rs, t => do
    let t ← seedRange r.startPfn r.endPfn ZoneType.all t
    seedRegions rs t

/-- The lists before seeding: empty, over pages with arbitrary contents. -/
def emptyArea (mem : ℕ → FreeNode) (pfnMax : ℕ) (layout : ZoneLayout) : FreeArea :=
  let a : FreeArea :=
    { pfnMax := pfnMax
      layout := layout
      bitmaps := fun _ _ => false
      pageblocks := fun _ => .unmovable
      freeHeads := fun _ => PFN_NULL
      freeCount := fun _ => 0
      mem := mem }
  a.setRange (layout.span .movable).startPfn (layout.span .movable).endPfn .movable

/-- The memory manager over seeded lists. -/
def ofSeeding (t : Seeding) (total : ℕ) : Pmm :=
  let s : Pmm :=
    { area := t.area
      zonelist := Zonelist.build fun z => decide (0 < t.managed z)
      managed := t.managed
      present := t.present
      spanned := fun z => (t.area.layout.span z).spannedPages
      reserve := fun _ _ => 0
      wmark := fun _ => {}
      tunables := none
      allocated := 0
      reserved := 0
      initialFree := total
      allocEvents := 0
      allocEventPages := 0
      freeEvents := 0
      freeEventPages := 0
      pcpBitmap := fun _ => false
      hibernateForbidden := fun _ => false
      pcp := fun _ => .empty
      zoneFree := t.area.zoneFreePages
      pcpFree := fun _ => 0
      pcpZone := fun _ => ⟨0, 0, fun _ => 0, 0⟩
      pcpAllocEvents := 0
      pcpAllocEventPages := 0
      pcpFreeEvents := 0
      pcpFreeEventPages := 0 }
  s.recomputeDerived.refreshPcpZones

/-- Build the manager over the regions. -/
def initZoned (mem : ℕ → FreeNode) (regions : List UsableRegion) (limits : Option ZoneLimits) :
    Except Fault (Except Error Pmm) :=
  if regions = [] then .ok (.error .outOfRange) else
  match measure regions 0 0 with
  | none => .ok (.error .outOfRange)
  | some (pfnMax, total) =>
    if anyOverlap regions then .ok (.error .overlap) else do
      let layout := ZoneLayout.new (limits.getD (ZoneLimits.archDefault pfnMax)) pfnMax
      let t ← seedRegions regions ⟨emptyArea mem pfnMax layout, fun _ => 0, fun _ => 0⟩
      return .ok (ofSeeding t total)

end Pmm

end Oxide.Buddy
