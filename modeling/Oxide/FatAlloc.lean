/-
Claiming clusters.

An allocation scans the table from behind the last one, wraps around, and links every free cluster
it meets to the one before, until it has enough. If the whole table has too few, the clusters are
given back.

* `Fat.allocClusters`: the allocation;
* `Fat.scanOrder`: the clusters in the order the scan visits them, each once;
* `Fat.Claimed`: what the table looks like while clusters are claimed;
* `Fat.scan_spec`: the scan claims the first free clusters of its order, as many as are asked for;
* `Fat.allocClusters_spec`: the outcomes of an allocation.
-/
import Mathlib.Data.List.NodupEquivFin
import Mathlib.Data.List.Perm.Subperm
import Mathlib.Data.Nat.ModEq
import Oxide.FatTable

namespace Oxide.Fat

open ByteBits List Fat.Geometry

variable {w : FatWidth}

/-- The errors of the chains. -/
inductive Errno
  | eio
  | enospc
  deriving DecidableEq

/-! ### The free count -/

/-- The free count and the hint of a mounted volume. -/
structure FreeState where
  free : Option ℕ
  valid : Bool
  prevFree : ℕ
  dirty : Bool

namespace FreeState

variable (st : FreeState)

def trustedCount : Option ℕ := if st.valid then st.free else none

def took (cluster : ℕ) : FreeState :=
  { st with prevFree := cluster, free := st.free.map (· - 1) }

def gaveBack : FreeState :=
  match st.free with
  | none => st
  | some free => { st with free := some ((free + 1) % 2 ^ 32), dirty := true }

def exhausted : FreeState := { st with free := some 0, valid := true }

def markDirty : FreeState := { st with dirty := true }

end FreeState

/-! ### Allocation -/

section

variable (geo : Geometry)

/-- How many clusters there are. -/
def Geometry.span : ℕ := geo.maxCluster - FAT_START_ENT

/-- The scan wraps around at the end. -/
def Geometry.after (cluster : ℕ) : ℕ :=
  if cluster + 1 ≥ geo.maxCluster then FAT_START_ENT else cluster + 1

/-- Where the scan begins. -/
def Geometry.startOf (hint : ℕ) : ℕ :=
  let cluster := (hint + 1) % 2 ^ 32
  if cluster ≥ geo.maxCluster ∨ cluster < FAT_START_ENT then FAT_START_ENT else cluster

/-- A scan under way. -/
structure Scan where
  table : Bytes
  st : FreeState
  got : List ℕ
  failed : Bool

/-- The new tail is ended before the previous cluster points at it.  The table is returned as it is
when a write fails. -/
def attach (w : FatWidth) (t : Bytes) (got : List ℕ) (cluster : ℕ) : Bytes × Bool :=
  match writeEntry w t cluster w.endMark with
  | none => (t, false)
  | some t =>
    match got.getLast? with
    | none => (t, true)
    | some prev =>
      match writeEntry w t prev cluster with
      | none => (t, false)
      | some t => (t, true)

def scan (geo : Geometry) (count : ℕ) : ℕ → ℕ → Scan → Scan
  | 0, _, s => s
  | fuel + 1, cluster, s =>
    if readEntry geo.width s.table cluster = some .free then
      let r := attach geo.width s.table s.got cluster
      if r.2 then
        let s : Scan := ⟨r.1, s.st.took cluster, s.got ++ [cluster], false⟩
        if s.got.length = count then s else scan geo count fuel (geo.after cluster) s
      else { s with table := r.1, failed := true }
    else scan geo count fuel (geo.after cluster) s

/-- One cluster of a failed allocation is given back. -/
def releaseOne (w : FatWidth) (p : Bytes × FreeState) (cluster : ℕ) : Bytes × FreeState :=
  match writeEntry w p.1 cluster 0 with
  | none => p
  | some t => (t, p.2.gaveBack)

def release (w : FatWidth) (p : Bytes × FreeState) (clusters : List ℕ) : Bytes × FreeState :=
  clusters.foldl (releaseOne w) p

/-- Claim a chain of clusters. -/
def allocClusters (t : Bytes) (st : FreeState) (count : ℕ) :
    (Bytes × FreeState) × Except Errno (List ℕ) :=
  if count = 0 then ((t, st), .ok [])
  else if st.trustedCount.any (· < count) then ((t, st), .error .enospc)
  else if geo.span = 0 then ((t, st), .error .enospc)
  else
    let s := scan geo count geo.span (geo.startOf st.prevFree) ⟨t, st, [], false⟩
    if s.failed then (release geo.width (s.table, s.st.markDirty) s.got, .error .eio)
    else if s.got.length < count then
      (release geo.width (s.table, s.st.exhausted.markDirty) s.got, .error .enospc)
    else ((s.table, s.st.markDirty), .ok s.got)

end

/-! ### Free entries -/

variable {geo : Geometry} {t t' t0 : Bytes} {st : FreeState} {got : List ℕ} {c n count : ℕ}

def isFree (w : FatWidth) (t : Bytes) (n : ℕ) : Bool := readEntry w t n = some .free

theorem isFree_iff : isFree w t n = true ↔ Holds w t n ∧ rawValue w t n = 0 := by
  unfold isFree readEntry readRaw classify
  by_cases h : Holds w t n
  · rw [if_pos h, Option.map_some]
    by_cases hz : rawValue w t n = 0
    · rw [if_pos hz]
      exact iff_of_true rfl ⟨h, hz⟩
    · rw [if_neg hz]
      refine iff_of_false ?_ fun hh => hz hh.2
      split <;> exact nofun
  · rw [if_neg h]
    exact iff_of_false nofun fun hh => h hh.1

/-- The clusters of the volume. -/
def Geometry.clusters (geo : Geometry) : List ℕ := List.range' FAT_START_ENT geo.span

def countFree (geo : Geometry) (t : Bytes) : ℕ := geo.clusters.countP (isFree geo.width t)

theorem Geometry.mem_clusters : c ∈ geo.clusters ↔ geo.validEntry c = true := by
  rw [clusters, validEntry, span, mem_range'_1, decide_eq_true_iff]
  omega

theorem Geometry.nodup_clusters (geo : Geometry) : geo.clusters.Nodup := nodup_range'

theorem countFree_le (geo : Geometry) (t : Bytes) : countFree geo t ≤ geo.span := by
  refine countP_le_length.trans ?_
  rw [clusters, length_range']

/-- The table has an entry for every cluster. -/
def HoldsAll (geo : Geometry) (t : Bytes) : Prop :=
  ∀ c, geo.validEntry c = true → Holds geo.width t c

/-- The count is unknown, or that of the free entries. -/
def FreeState.Right (st : FreeState) (geo : Geometry) (t : Bytes) : Prop :=
  ∀ free, st.free = some free → free = countFree geo t

/-! ### The order of the scan -/

/-- The clusters a scan of `fuel` steps visits. -/
def scanOrder (geo : Geometry) : ℕ → ℕ → List ℕ
  | 0, _ => []
  | fuel + 1, c => c :: scanOrder geo fuel (geo.after c)

theorem Geometry.valid_iff : geo.validEntry c = true ↔ 2 ≤ c ∧ c < geo.maxCluster := by
  exact decide_eq_true_iff

theorem Geometry.valid_after (h : geo.validEntry c = true) :
    geo.validEntry (geo.after c) = true ∧ geo.after c - 2 = (c - 2 + 1) % geo.span := by
  rw [valid_iff] at h ⊢
  unfold after span FAT_START_ENT
  split
  · have hc : c - 2 + 1 = geo.maxCluster - 2 := by omega
    rw [hc, Nat.mod_self]
    omega
  · rw [Nat.mod_eq_of_lt (by omega)]
    omega

theorem Geometry.valid_startOf (hspan : geo.span ≠ 0) (hint : ℕ) :
    geo.validEntry (geo.startOf hint) = true := by
  unfold span FAT_START_ENT at hspan
  rw [valid_iff]
  unfold startOf FAT_START_ENT
  dsimp only
  split <;> omega

theorem scanOrder_eq (fuel : ℕ) (h : geo.validEntry c = true) :
    scanOrder geo fuel c = (List.range fuel).map fun i => 2 + (c - 2 + i) % geo.span := by
  induction fuel generalizing c with
  | zero => rfl
  | succ fuel ih =>
  obtain ⟨hvalid, hnext⟩ := valid_after h
  have hc := valid_iff.mp h
  rw [scanOrder, ih hvalid, range_succ_eq_map, map_cons, map_map]
  congr 1
  · rw [Nat.mod_eq_of_lt]
    · omega
    · unfold Geometry.span FAT_START_ENT
      omega
  refine map_congr_left fun i _ => ?_
  rw [hnext, Nat.mod_add_mod]
  congr 2
  omega

/-- A full scan visits every cluster once. -/
theorem scanOrder_perm (h : geo.validEntry c = true) :
    (scanOrder geo geo.span c).Perm geo.clusters := by
  have hc := valid_iff.mp h
  have hspan : 0 < geo.span := by
    unfold Geometry.span FAT_START_ENT
    omega
  have hnodup : (scanOrder geo geo.span c).Nodup := by
    rw [scanOrder_eq _ h]
    refine (nodup_map_iff_inj_on nodup_range).mpr fun i hi j hj hij => ?_
    rw [mem_range] at hi hj
    have hmod : (c - 2 + i) ≡ (c - 2 + j) [MOD geo.span] := by
      unfold Nat.ModEq
      omega
    exact Nat.ModEq.eq_of_lt_of_lt (Nat.ModEq.add_left_cancel' _ hmod) hi hj
  refine (hnodup.subperm fun x hx => ?_).perm_of_length_le ?_
  · rw [scanOrder_eq _ h, mem_map] at hx
    obtain ⟨i, -, rfl⟩ := hx
    have hlt := Nat.mod_lt (c - 2 + i) hspan
    rw [mem_clusters, valid_iff]
    unfold Geometry.span FAT_START_ENT at hlt ⊢
    omega
  · rw [scanOrder_eq _ h, length_map, length_range]
    rw [clusters, length_range']

/-! ### Claimed clusters -/

/-- What the entry of the `i`-th cluster of a run holds. -/
def linkValue (w : FatWidth) (got : List ℕ) (i : ℕ) : ℕ := (got[i + 1]?).getD w.endMark

/-- **The clusters are claimed**: they were free, are linked in order and ended, and nothing else
has changed. -/
structure Claimed (geo : Geometry) (t0 t : Bytes) (got : List ℕ) : Prop where
  length : t.length = t0.length
  nodup : got.Nodup
  valid : ∀ g ∈ got, geo.validEntry g = true
  free : ∀ g ∈ got, rawValue geo.width t0 g = 0
  links : ∀ i g, got[i]? = some g →
    rawValue geo.width t g = linkValue geo.width got i % 2 ^ geo.width.carried
  bits : ∀ b, (∀ g ∈ got, ¬ InEntry geo.width g b) → bit t b = bit t0 b

theorem Claimed.nil (geo : Geometry) (t : Bytes) : Claimed geo t t [] :=
  ⟨rfl, nodup_nil, nofun, nofun, nofun, fun _ _ => rfl⟩

/-- The other entries are what they were. -/
theorem Claimed.raw (h : Claimed geo t0 t got) (hc : c ∉ got) :
    rawValue geo.width t c = rawValue geo.width t0 c :=
  rawValue_congr fun b hin => h.bits b fun _ hg hing => hc (hin.unique hing ▸ hg)

theorem Claimed.holds (h : Claimed geo t0 t got) : Holds geo.width t c ↔ Holds geo.width t0 c := by
  unfold Holds
  rw [h.length]

theorem linkValue_append_of_lt {i : ℕ} (hi : i + 1 < got.length) :
    linkValue w (got ++ [c]) i = linkValue w got i := by
  unfold linkValue
  rw [List.getElem?_append_left hi]

theorem Claimed.append (h : Claimed geo t0 t got) (hall : HoldsAll geo t0)
    (hc : geo.validEntry c = true) (hnew : c ∉ got) (hfree : rawValue geo.width t0 c = 0) :
    ∃ t', attach geo.width t got c = (t', true) ∧ Claimed geo t0 t' (got ++ [c]) := by
  obtain ⟨t1, hw1, hwr1⟩ := writeEntry_written (h.holds.mpr (hall c hc)) geo.width.endMark
  have hnodup : (got ++ [c]).Nodup := by
    rw [nodup_append]
    refine ⟨h.nodup, nodup_singleton c, fun a ha b hb => ?_⟩
    rw [mem_singleton] at hb
    exact fun hab => hnew (hb ▸ hab ▸ ha)
  have hmem : ∀ {P : ℕ → Prop}, (∀ g ∈ got, P g) → P c → ∀ g ∈ got ++ [c], P g := by
    intro P hP hPc g hg
    rcases mem_append.mp hg with hg | hg
    · exact hP g hg
    · rwa [mem_singleton.mp hg]
  rw [attach, hw1]
  cases hlast : got.getLast? with
  | none =>
    rw [List.getLast?_eq_none_iff] at hlast
    subst hlast
    refine ⟨t1, rfl, hwr1.length.trans h.length, hnodup, hmem h.valid hc, hmem h.free hfree, ?_, ?_⟩
    · intro i g hg
      cases i with
      | zero =>
        cases hg
        exact hwr1.raw_self
      | succ => cases hg
    · intro b hb
      rw [hwr1.bit, if_neg (hb c mem_cons_self)]
      exact h.bits b nofun
  | some prev =>
  have hprev : prev ∈ got := mem_of_getLast? hlast
  have hpc : prev ≠ c := fun hpc => hnew (hpc ▸ hprev)
  have hholds : Holds geo.width t1 prev :=
    hwr1.holds.mpr (h.holds.mpr (hall prev (h.valid prev hprev)))
  obtain ⟨t2, hw2, hwr2⟩ := writeEntry_written hholds c
  refine ⟨t2, by dsimp only; rw [hw2], hwr2.length.trans (hwr1.length.trans h.length), hnodup,
    hmem h.valid hc, hmem h.free hfree, ?_, ?_⟩
  · intro i g hg
    have hlen : i < got.length + 1 := by
      have hlt := (List.getElem?_eq_some_iff.mp hg).1
      rwa [length_append] at hlt
    rcases Nat.lt_or_ge (i + 1) got.length with hi | hi
    · -- an earlier link
      rw [linkValue_append_of_lt hi]
      rw [List.getElem?_append_left (by omega)] at hg
      have hgmem : g ∈ got := mem_of_getElem? hg
      have hgc : g ≠ c := fun hgc => hnew (hgc ▸ hgmem)
      have hgp : g ≠ prev := by
        rintro rfl
        rw [List.getLast?_eq_getElem?] at hlast
        have hidx := (List.getElem?_inj (by omega) h.nodup).mp (hg.trans hlast.symm)
        omega
      rw [hwr2.raw_other hgp, hwr1.raw_other hgc]
      exact h.links i g hg
    rcases Nat.lt_or_ge i got.length with hi' | hi'
    · -- the link to the new cluster
      have hidx : i = got.length - 1 := by omega
      rw [List.getElem?_append_left hi', hidx, ← List.getLast?_eq_getElem?, hlast] at hg
      cases hg
      have hlink : linkValue geo.width (got ++ [c]) i = c := by
        rw [linkValue, List.getElem?_append_right hi, show i + 1 - got.length = 0 by omega]
        rfl
      rw [hlink, hwr2.raw_self]
    -- the new end
    have hidx : i = got.length := by omega
    rw [List.getElem?_append_right hi', hidx, Nat.sub_self] at hg
    cases hg
    have hlink : linkValue geo.width (got ++ [c]) i = geo.width.endMark := by
      rw [linkValue, List.getElem?_eq_none (by rw [length_append, length_singleton]; omega)]
      rfl
    rw [hlink, hwr2.raw_other hpc.symm, hwr1.raw_self]
  · intro b hb
    rw [hwr2.bit, if_neg (hb prev (mem_append_left _ hprev)), hwr1.bit,
      if_neg (hb c (mem_append_right _ mem_cons_self))]
    exact h.bits b fun g hg => hb g (mem_append_left _ hg)

/-! ### The scan -/

/-- What the scan does to the count. -/
structure Took (st st' : FreeState) (k : ℕ) : Prop where
  free : st'.free = st.free.map (· - k)
  valid : st'.valid = st.valid

theorem Took.zero (st : FreeState) : Took st st 0 := by
  refine ⟨?_, rfl⟩
  simp

theorem Took.took {st' : FreeState} {k : ℕ} (h : Took st st' k) (c : ℕ) :
    Took st (st'.took c) (k + 1) := by
  refine ⟨?_, h.valid⟩
  show st'.free.map (· - 1) = _
  rw [h.free, Option.map_map]
  rfl

/-- **The scan claims the first free clusters of its order**, as many as are asked for. -/
theorem scan_spec (hall : HoldsAll geo t0) (fuel : ℕ) (s : Scan)
    (hs : Claimed geo t0 s.table s.got) (hfailed : s.failed = false)
    (hcount : s.got.length < count) (hvalid : ∀ x ∈ scanOrder geo fuel c, geo.validEntry x = true)
    (hnodup : (scanOrder geo fuel c).Nodup) (hnew : ∀ x ∈ scanOrder geo fuel c, x ∉ s.got) :
    ∃ more, more = ((scanOrder geo fuel c).filter (isFree geo.width t0)).take
        (count - s.got.length) ∧
      (scan geo count fuel c s).got = s.got ++ more ∧
      (scan geo count fuel c s).failed = false ∧
      Claimed geo t0 (scan geo count fuel c s).table (s.got ++ more) ∧
      Took s.st (scan geo count fuel c s).st more.length := by
  induction fuel generalizing c s with
  | zero =>
    refine ⟨[], take_nil.symm, (append_nil _).symm, hfailed, ?_, Took.zero _⟩
    rwa [append_nil]
  | succ fuel ih =>
  have hcv : geo.validEntry c = true := hvalid c mem_cons_self
  have hcnew : c ∉ s.got := hnew c mem_cons_self
  obtain ⟨hcrest, hrest⟩ := nodup_cons.mp hnodup
  have hsame : readEntry geo.width s.table c = readEntry geo.width t0 c :=
    readEntry_congr hs.length (hs.raw hcnew)
  rw [scan, scanOrder, hsame]
  by_cases hfree : readEntry geo.width t0 c = some .free
  · have hisFree : isFree geo.width t0 c = true := decide_eq_true hfree
    obtain ⟨t1, hatt, hcl⟩ := hs.append hall hcv hcnew (isFree_iff.mp hisFree).2
    have hlen : (s.got ++ [c]).length = s.got.length + 1 := by
      rw [length_append, length_singleton]
    rw [if_pos hfree, filter_cons_of_pos hisFree, hatt]
    rw [if_pos rfl]
    by_cases hdone : (s.got ++ [c]).length = count
    · rw [if_pos hdone]
      refine ⟨[c], ?_, rfl, rfl, hcl, (Took.zero s.st).took c⟩
      rw [show count - s.got.length = 1 by omega, take_succ_cons, take_zero]
    rw [if_neg hdone]
    obtain ⟨more, hmore, hgot, hnf, hcl', htook⟩ := ih
      ⟨t1, s.st.took c, s.got ++ [c], false⟩ hcl rfl (by dsimp only; omega)
      (fun x hx => hvalid x (mem_cons_of_mem c hx)) hrest (fun x hx hmem => by
        rcases mem_append.mp hmem with hmem | hmem
        · exact hnew x (mem_cons_of_mem c hx) hmem
        · rw [mem_singleton.mp hmem] at hx
          exact hcrest hx)
    refine ⟨c :: more, ?_, ?_, hnf, ?_, ?_⟩
    · rw [show count - s.got.length = (count - (s.got ++ [c]).length) + 1 by omega,
        take_succ_cons, ← hmore]
    · rw [hgot, append_assoc]
      rfl
    · rw [show s.got ++ c :: more = s.got ++ [c] ++ more by simp]
      exact hcl'
    refine ⟨?_, htook.valid⟩
    rw [htook.free]
    show (s.st.free.map (· - 1)).map (· - more.length) = s.st.free.map (· - (more.length + 1))
    rw [Option.map_map]
    congr 1
    funext x
    show x - 1 - more.length = x - (more.length + 1)
    omega
  · have hisFree : ¬ isFree geo.width t0 c = true := fun hh => hfree (of_decide_eq_true hh)
    rw [if_neg hfree, filter_cons_of_neg hisFree]
    exact ih s hs hfailed hcount (fun x hx => hvalid x (mem_cons_of_mem c hx)) hrest
      fun x hx => hnew x (mem_cons_of_mem c hx)

/-! ### Giving back -/

/-- The entries are zero, and all other bits are what they were. -/
structure Cleared (w : FatWidth) (t t' : Bytes) (clusters : List ℕ) : Prop where
  length : t'.length = t.length
  zero : ∀ c ∈ clusters, rawValue w t' c = 0
  bits : ∀ b, (∀ c ∈ clusters, ¬ InEntry w c b) → bit t' b = bit t b

theorem Cleared.raw {clusters : List ℕ} (h : Cleared w t t' clusters) (hc : c ∉ clusters) :
    rawValue w t' c = rawValue w t c :=
  rawValue_congr fun b hin => h.bits b fun _ hd hind => hc (hin.unique hind ▸ hd)

theorem gaveBack_free (st : FreeState) :
    st.gaveBack.free = st.free.map fun f => (f + 1) % 2 ^ 32 := by
  unfold FreeState.gaveBack
  cases h : st.free with
  | none => exact h
  | some => rfl

theorem release_spec (clusters : List ℕ) (p : Bytes × FreeState)
    (hholds : ∀ c ∈ clusters, Holds w p.1 c) :
    Cleared w p.1 (release w p clusters).1 clusters ∧
      ∀ free, p.2.free = some free → free + clusters.length < 2 ^ 32 →
        (release w p clusters).2.free = some (free + clusters.length) := by
  induction clusters generalizing p with
  | nil =>
    exact ⟨⟨rfl, nofun, fun _ _ => rfl⟩, fun _ hf _ => hf⟩
  | cons c clusters ih =>
  obtain ⟨t1, hw, hwr⟩ := writeEntry_written (hholds c mem_cons_self) 0
  have hone : releaseOne w p c = (t1, p.2.gaveBack) := by
    rw [releaseOne, hw]
  have hstep : release w p (c :: clusters) = release w (t1, p.2.gaveBack) clusters := by
    unfold release
    rw [foldl_cons, hone]
  obtain ⟨hcl, hfree⟩ := ih (t1, p.2.gaveBack)
    fun x hx => hwr.holds.mpr (hholds x (mem_cons_of_mem c hx))
  rw [hstep]
  refine ⟨⟨hcl.length.trans hwr.length, fun x hx => ?_, fun b hb => ?_⟩, fun free hf hlt => ?_⟩
  · rcases mem_cons.mp hx with rfl | hx
    · -- the entry is zero already, and later writes leave it or write zero again
      by_cases hmem : x ∈ clusters
      · exact hcl.zero x hmem
      · rw [hcl.raw hmem, hwr.raw_self, Nat.zero_mod]
    · exact hcl.zero x hx
  · rw [hcl.bits b fun y hy => hb y (mem_cons_of_mem c hy), hwr.bit, if_neg (hb c mem_cons_self)]
  rw [length_cons] at hlt ⊢
  rw [hfree (free + 1) ?_ (by omega)]
  · congr 1
    omega
  · rw [gaveBack_free, hf, Option.map_some, Nat.mod_eq_of_lt (by omega)]

/-- Giving back what was claimed restores the table. -/
theorem Claimed.cleared (h : Claimed geo t0 t got) (hc : Cleared geo.width t t' got) : t' = t0 := by
  refine ext_bit (hc.length.trans h.length) fun b => ?_
  by_cases hb : ∀ g ∈ got, ¬ InEntry geo.width g b
  · rw [hc.bits b hb, h.bits b hb]
  push Not at hb
  obtain ⟨g, hg, hin⟩ := hb
  -- a bit of an entry that was free, and is again
  have hbit : ∀ {s : Bytes}, rawValue geo.width s g = 0 → bit s b = false := by
    intro s hs
    have htest := rawValue_testBit geo.width s g (b - geo.width.bits * g)
    obtain ⟨h1, h2⟩ := hin
    rw [hs, Nat.zero_testBit, decide_eq_true (by omega), Nat.add_sub_cancel' h1] at htest
    exact htest.symm
  rw [hbit (hc.zero g hg), hbit (h.free g hg)]

/-! ### Counting -/

/-- The free entries among some clusters and among the others. -/
theorem countFree_eq (hn : got.Nodup) (hv : ∀ g ∈ got, geo.validEntry g = true) (t : Bytes) :
    countFree geo t = got.countP (isFree geo.width t) +
      (geo.clusters.filter fun c => c ∉ got).countP (isFree geo.width t) := by
  have hperm : (geo.clusters.filter fun c => c ∈ got).Perm got := by
    refine (perm_ext_iff_of_nodup (geo.nodup_clusters.filter _) hn).mpr fun c => ?_
    rw [mem_filter, decide_eq_true_iff, mem_clusters]
    exact ⟨fun h => h.2, fun h => ⟨hv c h, h⟩⟩
  have hnot : (fun c => decide (c ∉ got)) = fun c => !decide (c ∈ got) :=
    funext fun c => decide_not
  rw [countFree, ← hperm.countP_eq, hnot, ← countP_eq_countP_filter_add]

theorem isFree_congr (hlen : t'.length = t.length) (hraw : rawValue w t' c = rawValue w t c) :
    isFree w t' c = isFree w t c := by
  unfold isFree
  rw [readEntry_congr hlen hraw]

theorem countP_others (hlen : t'.length = t.length)
    (hraw : ∀ c, c ∉ got → rawValue geo.width t' c = rawValue geo.width t c) :
    (geo.clusters.filter fun c => c ∉ got).countP (isFree geo.width t') =
      (geo.clusters.filter fun c => c ∉ got).countP (isFree geo.width t) := by
  refine countP_congr fun c hc => ?_
  rw [mem_filter, decide_eq_true_iff] at hc
  rw [isFree_congr hlen (hraw c hc.2)]

/-- The bad mark is below what an entry can carry. -/
theorem badMark_lt (w : FatWidth) : 2 < w.badMark ∧ w.badMark < 2 ^ w.carried ∧
    w.badMark ≤ w.endMark ∧ w.endMark < 2 ^ w.carried := by
  cases w <;> decide

/-- Where cluster numbers are below the bad mark, entries hold what was written. -/
theorem linkValue_mod (hmax : geo.maxCluster ≤ geo.width.badMark)
    (hv : ∀ g ∈ got, geo.validEntry g = true) (i : ℕ) :
    linkValue geo.width got i % 2 ^ geo.width.carried = linkValue geo.width got i ∧
      linkValue geo.width got i ≠ 0 := by
  obtain ⟨h1, h2, h3, h4⟩ := badMark_lt geo.width
  unfold linkValue
  cases hg : got[i + 1]? with
  | none =>
    rw [Option.getD_none, Nat.mod_eq_of_lt h4]
    exact ⟨rfl, by omega⟩
  | some g =>
  have hgv := valid_iff.mp (hv g (mem_of_getElem? hg))
  rw [Option.getD_some, Nat.mod_eq_of_lt (by omega)]
  exact ⟨rfl, by omega⟩

/-- Each cluster claimed is one that is no longer free. -/
theorem Claimed.countFree (h : Claimed geo t0 t got) (hall : HoldsAll geo t0)
    (hmax : geo.maxCluster ≤ geo.width.badMark) :
    countFree geo t + got.length = countFree geo t0 := by
  have hold : got.countP (isFree geo.width t0) = got.length :=
    countP_eq_length.mpr fun g hg => isFree_iff.mpr ⟨hall g (h.valid g hg), h.free g hg⟩
  have hnow : got.countP (isFree geo.width t) = 0 := by
    refine countP_eq_zero.mpr fun g hg hfree => ?_
    obtain ⟨i, hi⟩ := List.getElem?_of_mem hg
    have hlink := h.links i g hi
    obtain ⟨hmod, hne⟩ := linkValue_mod hmax h.valid i
    rw [(isFree_iff.mp hfree).2, hmod] at hlink
    exact hne hlink.symm
  rw [countFree_eq h.nodup h.valid t, countFree_eq h.nodup h.valid t0, hold, hnow,
    countP_others h.length fun c hc => h.raw hc]
  omega

/-! ### Outcomes -/

/-- An allocation has claimed as many clusters as it was asked for. -/
structure Allocated (geo : Geometry) (t : Bytes) (st : FreeState) (count : ℕ) (t' : Bytes)
    (st' : FreeState) (got : List ℕ) : Prop where
  length : got.length = count
  order : got = ((scanOrder geo geo.span (geo.startOf st.prevFree)).filter
    (isFree geo.width t)).take count
  claimed : Claimed geo t t' got
  free : st'.free = st.free.map (· - count)

/-- **The outcomes of an allocation.** With enough free entries it claims the clusters; with too few
it leaves the table alone, and a count that is known is right. -/
theorem allocClusters_spec (hall : HoldsAll geo t) (hst : st.Right geo t) (count : ℕ) :
    (count ≤ countFree geo t ∧ ∃ t' st' got,
      allocClusters geo t st count = ((t', st'), .ok got) ∧ Allocated geo t st count t' st' got) ∨
    (countFree geo t < count ∧ ∃ st' e,
      allocClusters geo t st count = ((t, st'), .error e) ∧ st'.Right geo t) := by
  unfold allocClusters
  by_cases hzero : count = 0
  · subst hzero
    refine .inl ⟨Nat.zero_le _, t, st, [], rfl, rfl, take_zero.symm, Claimed.nil geo t, ?_⟩
    exact (Took.zero st).free
  rw [if_neg hzero]
  by_cases htrust : st.trustedCount.any (· < count) = true
  · rw [if_pos htrust]
    refine .inr ⟨?_, st, .enospc, rfl, hst⟩
    unfold FreeState.trustedCount at htrust
    split at htrust
    · cases hfree : st.free with
      | none =>
        simp [hfree] at htrust
      | some free =>
        rw [hfree, Option.any_some, decide_eq_true_iff] at htrust
        rwa [← hst free hfree]
    · cases htrust
  rw [if_neg htrust]
  have hspan := countFree_le geo t
  by_cases hs : geo.span = 0
  · rw [if_pos hs]
    exact .inr ⟨by omega, st, .enospc, rfl, hst⟩
  rw [if_neg hs]
  -- the scan visits every cluster, unless it has enough before
  have hperm := scanOrder_perm (valid_startOf hs st.prevFree)
  obtain ⟨more, hmore, hgot, hnf, hcl, htook⟩ := scan_spec hall geo.span
    ⟨t, st, [], false⟩ (Claimed.nil geo t) rfl (Nat.pos_of_ne_zero hzero)
    (fun x hx => mem_clusters.mp (hperm.subset hx))
    (hperm.nodup_iff.mpr geo.nodup_clusters) (fun x _ => not_mem_nil)
  rw [nil_append] at hgot hcl
  have hlen : more.length = min count (countFree geo t) := by
    rw [hmore, length_take, ← countP_eq_length_filter, hperm.countP_eq]
    rfl
  dsimp only
  rw [hnf, if_neg Bool.false_ne_true, hgot]
  by_cases henough : count ≤ countFree geo t
  · rw [if_neg (by omega)]
    have hcount : more.length = count := by omega
    exact .inl ⟨henough, _, _, more, rfl, hcount, hmore, hcl, hcount ▸ htook.free⟩
  rw [if_pos (by omega)]
  obtain ⟨hclr, hfree⟩ := release_spec more
    ((scan geo count geo.span (geo.startOf st.prevFree) ⟨t, st, [], false⟩).table,
      (scan geo count geo.span (geo.startOf st.prevFree) ⟨t, st, [], false⟩).st.exhausted.markDirty)
    fun x hx => hcl.holds.mpr (hall x (hcl.valid x hx))
  have hmax := geo.max_lt
  have hfree' := hfree 0 rfl (by unfold Geometry.span at hspan; omega)
  refine .inr ⟨by omega, _, .enospc, Prod.ext (Prod.ext (hcl.cleared hclr) rfl) rfl, ?_⟩
  intro free hf
  cases hfree'.symm.trans hf
  omega

end Oxide.Fat
