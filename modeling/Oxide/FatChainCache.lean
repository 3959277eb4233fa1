/-
The cache of chain positions.

Finding a cluster of a file means following its chain link by link. A file keeps a few runs of
consecutive clusters it has walked over, and a walk starts at the nearest of them.

* `getCluster`: the walk to a cluster, from the nearest run, with what it records;
* `Reaches`: a cluster is at a position of the chain, by links that were read;
* `getCluster_invisible`: **whatever was asked before, the answer is that of an empty cache**.
-/
import Oxide.FatFree
import Oxide.Runs

namespace Oxide.Fat

open ByteBits List Fat.Geometry

def FAT_MAX_CACHE : ℕ := 8

/-- The generation of a position that was not read from the cache. -/
def CACHE_ALWAYS_VALID : BitVec 32 := BitVec.allOnes 32

/-- A run that is remembered: its first offset and cluster, and how many clusters follow. -/
structure CacheRun where
  fcluster : ℕ
  dcluster : ℕ
  nrContig : ℕ

/-- The run a walk is building. -/
structure CacheId where
  id : BitVec 32
  fcluster : Option ℕ
  dcluster : ℕ
  nrContig : ℕ

namespace CacheId

def dummy : CacheId := ⟨CACHE_ALWAYS_VALID, none, 0, 0⟩

def restart (fclus dclus : ℕ) : CacheId := ⟨CACHE_ALWAYS_VALID, some fclus, dclus, 0⟩

/-- The run is one longer; does the cluster continue it? -/
def extend (cid : CacheId) (dclus : ℕ) : CacheId × Bool :=
  let n := cid.nrContig + 1
  ({ cid with nrContig := n }, cid.dcluster + n < 2 ^ 32 ∧ cid.dcluster + n = dclus)

/-- The run after a link: longer, or begun anew. -/
def follow (cid : CacheId) (fclus dclus : ℕ) : CacheId :=
  if (cid.extend dclus).2 then (cid.extend dclus).1 else restart fclus dclus

end CacheId

/-- The runs of a file, the one used last first. -/
structure ChainCache where
  runs : List CacheRun
  generation : BitVec 32

namespace ChainCache

def new : ChainCache := ⟨[], 0⟩

/-- A run comes to the front. -/
def touch (runs : List CacheRun) (i : ℕ) : List CacheRun := runs[i]?.toList ++ runs.eraseIdx i

/-- The nearest run at or before an offset, with its index; one that covers the offset is taken at
once, one at the start of the chain never. -/
def nearest (fclus : ℕ) : List (CacheRun × ℕ) → Option (CacheRun × ℕ) → Option (CacheRun × ℕ)
  | [], hit => hit
  | e :: rest, hit =>
    if e.1.fcluster = 0 ∨ fclus < e.1.fcluster ∨ hit.any (fun h => e.1.fcluster ≤ h.1.fcluster) then
      nearest fclus rest hit
    else if fclus ≤ e.1.fcluster + e.1.nrContig then some e
    else nearest fclus rest (some e)

/-- The offset and the cluster to go on from, and the run to go on building. -/
def lookup (c : ChainCache) (fclus : ℕ) : Option (ℕ × ℕ × CacheId) × ChainCache :=
  match nearest fclus c.runs.zipIdx none with
  | none => (none, c)
  | some (run, i) =>
    let offset := min run.nrContig (fclus - run.fcluster)
    (some (run.fcluster + offset, run.dcluster + offset,
      ⟨c.generation, some run.fcluster, run.dcluster, run.nrContig⟩),
      { c with runs := touch c.runs i })

/-- A run is recorded: one at the same offset is widened, the one used last goes if there is no
room. -/
def add (c : ChainCache) (cid : CacheId) : ChainCache :=
  match cid.fcluster with
  | none => c
  | some fcluster =>
    if cid.id ≠ CACHE_ALWAYS_VALID ∧ cid.id ≠ c.generation then c
    else match c.runs.zipIdx.find? fun e => e.1.fcluster = fcluster with
      | some (r, i) =>
        let wide := { r with nrContig := max r.nrContig cid.nrContig }
        { c with runs := touch (c.runs.set i wide) i }
      | none =>
        let run := ⟨fcluster, cid.dcluster, cid.nrContig⟩
        let last := c.runs.length - 1
        { c with runs := if c.runs.length < FAT_MAX_CACHE then run :: c.runs
                         else touch (c.runs.set last run) last }

def invalidate (c : ChainCache) : ChainCache :=
  let g := c.generation + 1
  ⟨[], if g = CACHE_ALWAYS_VALID then g + 1 else g⟩

end ChainCache

/-- Where a walk stopped: at the offset it was to reach, or at the end of the chain. -/
inductive Seek
  | found (fclus dclus : ℕ)
  | eof (fclus dclus : ℕ)

/-- `n` links from a cluster on.  A walk longer than the volume has clusters is one around a
circle. -/
def walk (geo : Geometry) (t : Bytes) : ℕ → ℕ → ℕ → CacheId → Except Errno (Seek × CacheId)
  | 0, fclus, dclus, cid =>
    if geo.validEntry dclus then .ok (.found fclus dclus, cid) else .error .eio
  | n + 1, fclus, dclus, cid =>
    if geo.totalClusters < fclus then .error .eio
    else match followLink geo t dclus with
      | .error e => .error e
      | .ok none => .ok (.eof fclus dclus, cid)
      | .ok (some next) => walk geo t n (fclus + 1) next (cid.follow (fclus + 1) next)

/-- Walk to a cluster. -/
def getCluster (geo : Geometry) (t : Bytes) (c : ChainCache) (start target : ℕ) :
    Except Errno Seek × ChainCache :=
  if geo.validEntry start = false then (.error .eio, c)
  else if target = 0 then (.ok (.found 0 start), c)
  else
    let (hit, c) := c.lookup target
    let (fclus, dclus, cid) := hit.getD (0, start, .dummy)
    match walk geo t (target - fclus) fclus dclus cid with
    | .error e => (.error e, c)
    | .ok (s, cid) => (.ok s, c.add cid)

variable {geo : Geometry} {t : Bytes} {start target f d d' n : ℕ} {c : ChainCache} {cid : CacheId}

/-! ### Positions -/

/-- The chain has a cluster at an offset, by links a walk may read. -/
inductive Reaches (geo : Geometry) (t : Bytes) (start : ℕ) : ℕ → ℕ → Prop
  | start : Reaches geo t start 0 start
  | next {f d d' : ℕ} : Reaches geo t start f d → f ≤ geo.totalClusters →
    followLink geo t d = .ok (some d') → Reaches geo t start (f + 1) d'

theorem Reaches.unique (h : Reaches geo t start f d) (h' : Reaches geo t start f d') : d = d' := by
  induction h generalizing d' with
  | start =>
    cases h'
    rfl
  | next _ _ hl ih =>
  cases h' with
  | next hr _ hl' =>
    rw [ih hr] at hl
    cases hl.symm.trans hl'
    rfl

/-- A run of the chain, with clusters of the volume. -/
def CacheRun.Sound (geo : Geometry) (t : Bytes) (start : ℕ) (r : CacheRun) : Prop :=
  ∀ j ≤ r.nrContig, Reaches geo t start (r.fcluster + j) (r.dcluster + j) ∧
    geo.validEntry (r.dcluster + j) = true

/-- Every run that is remembered is one of the chain. -/
def ChainCache.Sound (geo : Geometry) (t : Bytes) (start : ℕ) (c : ChainCache) : Prop :=
  ∀ r ∈ c.runs, r.Sound geo t start

/-- What a walk with `n` links to go carries: a run that ends where it is, of clusters that are
known to be valid but for the last. -/
def Carries (geo : Geometry) (t : Bytes) (start n f d : ℕ) (cid : CacheId) : Prop :=
  ∀ g, cid.fcluster = some g → (n ≠ 0 → f = g + cid.nrContig ∧ d = cid.dcluster + cid.nrContig) ∧
    ∀ j ≤ cid.nrContig, Reaches geo t start (g + j) (cid.dcluster + j) ∧
      (geo.validEntry (cid.dcluster + j) = true ∨ cid.dcluster + j = d)

/-! ### The walk -/

theorem valid_of_followLink {next : Option ℕ} (h : followLink geo t d = .ok next) :
    geo.validEntry d = true := by
  unfold followLink at h
  split at h
  · assumption
  · cases h

theorem Carries.sound (h : Carries geo t start n f d cid) (hv : geo.validEntry d = true) {g : ℕ}
    (hg : cid.fcluster = some g) : CacheRun.Sound geo t start ⟨g, cid.dcluster, cid.nrContig⟩ := by
  intro j hj
  obtain ⟨hr, hvalid⟩ := (h g hg).2 j hj
  exact ⟨hr, hvalid.elim id fun heq => heq ▸ hv⟩

theorem Carries.follow (h : Carries geo t start (n + 1) f d cid) (hf : f ≤ geo.totalClusters)
    (hr : Reaches geo t start f d) (hl : followLink geo t d = .ok (some d')) :
    Carries geo t start n (f + 1) d' (cid.follow (f + 1) d') := by
  have hnext := Reaches.next hr hf hl
  unfold CacheId.follow
  split_ifs with hext
  · have hd : cid.dcluster + (cid.nrContig + 1) = d' := (of_decide_eq_true hext).2
    intro g hg
    obtain ⟨rfl, -⟩ := (h g hg).1 n.succ_ne_zero
    refine ⟨fun _ => ⟨rfl, hd.symm⟩, fun j hj => ?_⟩
    rcases Nat.lt_or_eq_of_le hj with hlt | rfl
    · obtain ⟨hj, hv⟩ := h.sound (valid_of_followLink hl) hg j (Nat.le_of_lt_succ hlt)
      exact ⟨hj, .inl hv⟩
    · exact ⟨hd ▸ hnext, .inr hd⟩
  intro g hg
  cases hg
  refine ⟨fun _ => ⟨rfl, rfl⟩, fun j hj => ?_⟩
  obtain rfl := Nat.le_zero.mp hj
  exact ⟨hnext, .inr rfl⟩

/-- What a walk hands over to the cache is a run of the chain. -/
theorem walk_sound {s : Seek} {cid' : CacheId} {g : ℕ} (hr : Reaches geo t start f d)
    (hc : Carries geo t start n f d cid) (h : walk geo t n f d cid = .ok (s, cid'))
    (hg : cid'.fcluster = some g) :
    CacheRun.Sound geo t start ⟨g, cid'.dcluster, cid'.nrContig⟩ := by
  induction n generalizing f d cid with
  | zero =>
    rw [walk] at h
    split at h
    · cases h
      exact hc.sound ‹_› hg
    · cases h
  | succ n ih =>
  rw [walk] at h
  obtain ⟨hf, h⟩ := Except.ite_error_eq_ok.mp h
  split at h
  · cases h
  case h_2 hl =>
    cases h
    exact hc.sound (valid_of_followLink hl) hg
  case h_3 hl =>
    have hle := Nat.le_of_not_lt hf
    exact ih (.next hr hle hl) (hc.follow hle hr hl) h

/-- Where a walk ends depends neither on the run it carries nor on where it starts. -/
theorem walk_fst (n f d : ℕ) (cid cid' : CacheId) :
    (walk geo t n f d cid).map Prod.fst = (walk geo t n f d cid').map Prod.fst := by
  induction n generalizing f d cid cid' with
  | zero =>
    rw [walk, walk]
    split <;> rfl
  | succ n ih =>
  rw [walk, walk]
  split
  · rfl
  split
  · rfl
  · rfl
  · exact ih ..

theorem walk_reaches (h : Reaches geo t start f d) (hle : f ≤ target) (cid cid' : CacheId) :
    (walk geo t target 0 start cid').map Prod.fst =
      (walk geo t (target - f) f d cid).map Prod.fst := by
  induction h generalizing cid with
  | start => exact walk_fst ..
  | @next f d d' _ hf hl ih =>
    have hn : target - f = target - (f + 1) + 1 := by omega
    rw [ih (by omega) cid, hn, walk, if_neg (Nat.not_lt.mpr hf), hl]
    exact walk_fst ..

/-! ### The cache -/

namespace ChainCache

theorem mem_touch {runs : List CacheRun} {i : ℕ} {r : CacheRun} (h : r ∈ touch runs i) :
    r ∈ runs := by
  rcases mem_append.mp h with h | h
  · exact mem_of_getElem? (Option.mem_toList.mp h)
  · exact mem_of_mem_eraseIdx h

theorem nearest_spec {l : List (CacheRun × ℕ)} {hit : Option (CacheRun × ℕ)} {e : CacheRun × ℕ}
    (h : nearest target l hit = some e) : hit = some e ∨ e ∈ l ∧ e.1.fcluster ≤ target := by
  induction l generalizing hit with
  | nil => exact .inl h
  | cons a rest ih =>
  rw [nearest] at h
  split at h
  · exact (ih h).imp_right fun he => ⟨mem_cons_of_mem a he.1, he.2⟩
  rename_i hno
  have ha : a.1.fcluster ≤ target := Nat.le_of_not_lt fun hlt => hno (.inr (.inl hlt))
  split at h
  · cases h
    exact .inr ⟨mem_cons_self, ha⟩
  · rcases ih h with heq | he
    · cases heq
      exact .inr ⟨mem_cons_self, ha⟩
    · exact .inr ⟨mem_cons_of_mem a he.1, he.2⟩

theorem sound_nil (g : BitVec 32) : Sound geo t start ⟨[], g⟩ := fun _ h => absurd h not_mem_nil

/-- The walk goes on from a position of the chain. -/
theorem Sound.lookup (h : c.Sound geo t start) (target : ℕ) :
    let hit := (c.lookup target).1.getD (0, start, .dummy)
    (c.lookup target).2.Sound geo t start ∧ hit.1 ≤ target ∧ Reaches geo t start hit.1 hit.2.1 ∧
      Carries geo t start (target - hit.1) hit.1 hit.2.1 hit.2.2 := by
  unfold ChainCache.lookup
  split
  · exact ⟨h, Nat.zero_le _, .start, nofun⟩
  rename_i run i hnear
  obtain ⟨hmem, hle⟩ := (nearest_spec hnear).resolve_left nofun
  dsimp only at hle
  have hrun := h run (fst_mem_of_mem_zipIdx hmem)
  dsimp only [Option.getD_some]
  refine ⟨fun r hr => h r (mem_touch hr), by omega, (hrun _ (Nat.min_le_left ..)).1, ?_⟩
  rintro g ⟨⟩
  exact ⟨fun hn => by dsimp only; omega, fun j hj => (hrun j hj).imp_right .inl⟩

theorem Sound.add (h : c.Sound geo t start)
    (hcid : ∀ g, cid.fcluster = some g →
      CacheRun.Sound geo t start ⟨g, cid.dcluster, cid.nrContig⟩) :
    (c.add cid).Sound geo t start := by
  unfold ChainCache.add
  split
  · exact h
  rename_i g hg
  have hnew := hcid g hg
  split
  · exact h
  split
  case h_1 r i hfind =>
    have hr := h r (fst_mem_of_mem_zipIdx (mem_of_find?_eq_some hfind))
    obtain rfl : r.fcluster = g := by simpa using find?_some hfind
    -- both runs begin at one cluster of the chain
    have hd := (hr 0 (Nat.zero_le _)).1.unique (hnew 0 (Nat.zero_le _)).1
    intro x hx
    rcases mem_or_eq_of_mem_set (mem_touch hx) with hx | rfl
    · exact h x hx
    · intro j hj
      rcases le_max_iff.mp hj with hj | hj
      · exact hr j hj
      · have hj := hnew j hj
        rwa [← show r.dcluster = cid.dcluster from hd] at hj
  · intro x hx
    dsimp only at hx
    split at hx
    · exact (mem_cons.mp hx).elim (· ▸ hnew) (h x)
    · exact (mem_or_eq_of_mem_set (mem_touch hx)).elim (h x) (· ▸ hnew)

end ChainCache

/-! ### Calls -/

/-- A call keeps the cache sound and answers what a walk from the start of the chain does. -/
theorem getCluster_spec (h : c.Sound geo t start) (target : ℕ) :
    (getCluster geo t c start target).2.Sound geo t start ∧ (getCluster geo t c start target).1 =
        if geo.validEntry start = false then .error .eio
        else if target = 0 then .ok (.found 0 start)
        else (walk geo t target 0 start .dummy).map Prod.fst := by
  unfold getCluster
  split
  · exact ⟨h, rfl⟩
  split
  · exact ⟨h, rfl⟩
  obtain ⟨hc, hle, hr, hcarry⟩ := h.lookup target
  dsimp only
  rw [walk_reaches hr hle _ .dummy]
  split
  case h_1 heq => exact ⟨hc, by rw [heq]; rfl⟩
  case h_2 heq => exact ⟨hc.add fun g => walk_sound hr hcarry heq, by rw [heq]; rfl⟩

/-- A file: its table and its cache. -/
structure CachedFile where
  table : Bytes
  cache : ChainCache

inductive CacheEvent
  | seek (target : ℕ)
  /-- The table changes, and the cache is invalidated before the next call. -/
  | change (table : Bytes)

def CachedFile.step (geo : Geometry) (start : ℕ) (s : CachedFile) : CacheEvent → CachedFile
  | .seek target => { s with cache := (getCluster geo s.table s.cache start target).2 }
  | .change table => ⟨table, s.cache.invalidate⟩

/-- **The cache is invisible.** -/
theorem getCluster_invisible (geo : Geometry) (t : Bytes) (start : ℕ) (events : List CacheEvent)
    (target : ℕ) :
    let s := events.foldl (CachedFile.step geo start) ⟨t, .new⟩
    (getCluster geo s.table s.cache start target).1 =
      (getCluster geo s.table .new start target).1 := by
  intro s
  have hs : s.cache.Sound geo s.table start := by
    refine Run.invariant (I := fun s : CachedFile => s.cache.Sound geo s.table start)
      (fun s e hs => ?_) (ChainCache.sound_nil 0)
    cases e with
    | seek => exact (getCluster_spec hs ..).1
    | change => exact ChainCache.sound_nil _
  rw [(getCluster_spec hs target).2]
  exact (getCluster_spec (ChainCache.sound_nil 0) target).2.symm

end Oxide.Fat
