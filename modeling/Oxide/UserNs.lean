/-
User namespaces and their id maps.

A user namespace has a parent, two id maps that a write installs once each, and a `setgroups`
policy. `update_map` and `update_setgroups` are the procfs writers; `step` is one event of the
system: a namespace is created, one of its files is written, or its last reference goes.

* `userNsIsAncestor_iff`: the walk over the parents decides the ancestor relation;
* `updateMap_ok`: an accepted write installs the extents of its text in the one map that was
  empty;
* `WellFormed.step`: every run keeps the tree and the validity of installed maps.

Design notes: a namespace is its id; ids are given out in order and never again. The two id
maps and the project map are one function of the kind. A task holds its namespace and the
opener's, so events are about live namespaces.
-/
import Oxide.IdMap
import Oxide.Runs

namespace Oxide

open Function Except

variable {a n owner : ℕ}

/-- The maps of a namespace. -/
inductive IdMapKind
  | uid
  | gid
  | projid
  deriving DecidableEq

/-- Whether an unprivileged writer is held to one extent that names its own id. -/
def IdMapKind.writeNeedsPrivilege : IdMapKind → Bool
  | .uid | .gid => true
  | .projid => false

inductive SetgroupsPolicy
  | allow
  | deny
  deriving DecidableEq

/-- The errors of the writers. -/
inductive UserNsError
  | initialOwner
  | noParent
  | alreadyPopulated
  | emptyExtents
  | tooManyExtents
  | zeroCount
  | rangeOverflow
  | overlap
  | unprivilegedNotOwnId
  | setgroupsMustDenyFirst
  | setgroupsLockedAfterGidMap
  deriving DecidableEq

def UserNsError.ofExtentError : ExtentError → UserNsError
  | .empty => .emptyExtents
  | .tooMany => .tooManyExtents
  | .zeroCount => .zeroCount
  | .rangeOverflow => .rangeOverflow
  | .overlap => .overlap

/-- The errno of a refused write. -/
def UserNsError.toVfs : UserNsError → VfsError
  | .initialOwner | .noParent | .alreadyPopulated | .unprivilegedNotOwnId
  | .setgroupsMustDenyFirst | .setgroupsLockedAfterGidMap => .eperm
  | .emptyExtents | .tooManyExtents | .zeroCount | .rangeOverflow | .overlap => .einval

/-- The maps and the policy of one namespace. -/
structure UserNsState where
  /-- `uid_map`, `gid_map` and `projid_map`, each empty until its first write. -/
  map : IdMapKind → Option (List IdMapExtent)
  setgroups : SetgroupsPolicy
  /-- The effective uid of the creator, where a creation was recorded. -/
  ownerEuid : Option UInt32

def UserNsState.default : UserNsState := ⟨fun _ => none, .allow, none⟩

/-- All user namespaces. -/
structure UserNsWorld where
  /-- The id of the next namespace. -/
  nextId : ℕ
  /-- The namespaces something still refers to. -/
  live : ℕ → Bool
  parent : ℕ → Option ℕ
  state : ℕ → Option UserNsState

/-- The credentials a file was opened with. -/
structure FileCred where
  uid : UInt32
  gid : UInt32
  userNamespace : ℕ
  capEffective : UInt64

def FileCred.hasCap (c : FileCred) (capability : ℕ) : Bool :=
  capability < 64 && c.capEffective.toBitVec.getLsbD capability

def CAP_SETGID : ℕ := 6
def CAP_SETUID : ℕ := 7
def CAP_SYS_ADMIN : ℕ := 21

namespace UserNsWorld

/-- Only the initial namespace. -/
def boot : UserNsWorld where
  nextId := 1
  live n := n = 0
  parent _ := none
  state _ := none

/-- The identity extent of the initial namespace: it stops one id short. -/
def initialMap : List IdMapExtent := [⟨0, 0, 4294967295⟩]

variable (w : UserNsWorld) (owner : ℕ)

/-- The map of a namespace as `with_map` hands it on. -/
def withMap (kind : IdMapKind) : List IdMapExtent :=
  if owner = 0 then initialMap else ((w.state owner).bind fun s => s.map kind).getD []

/-- The host id a namespace id stands for. -/
def toHost (kind : IdMapKind) (nsId : UInt32) : Option UInt32 :=
  if nsId = INVALID_ID then none else toHostChecked (w.withMap owner kind) nsId

def requireWritableOwner : Except UserNsError Unit :=
  if owner = 0 then .error .initialOwner
  else if (w.parent owner).isNone then .error .noParent
  else .ok ()

/-- The state of a namespace, or the one its first mention creates. -/
def entry : UserNsState := (w.state owner).getD .default

def putState (s : UserNsState) : UserNsWorld :=
  { w with state := update w.state owner (some s) }

/-- One validated write of a map. -/
def writeMap (kind : IdMapKind) (writerHasCapInParent : Bool) (writerOwnId : UInt32)
    (extents : List IdMapExtent) : Except UserNsError UserNsWorld := do
  w.requireWritableOwner owner
  (validateExtents extents).mapError .ofExtentError
  if kind.writeNeedsPrivilege && !writerHasCapInParent &&
      !(extents.length = 1 && extents.all fun sole => sole.count = 1 && sole.hostId = writerOwnId)
  then .error .unprivilegedNotOwnId
  else
    let state := w.entry owner
    if (state.map kind).isSome then .error .alreadyPopulated
    else if kind = .gid && !writerHasCapInParent && state.setgroups ≠ .deny then
      .error .setgroupsMustDenyFirst
    else pure (w.putState owner { state with map := update state.map kind (some extents) })

/-- One write of the `setgroups` file. -/
def writeSetgroups (policy : SetgroupsPolicy) : Except UserNsError UserNsWorld := do
  w.requireWritableOwner owner
  let state := w.entry owner
  if (state.map .gid).isSome then .error .setgroupsLockedAfterGidMap
  else pure (w.putState owner { state with setgroups := policy })

/-- The walk from a namespace over its parents, `fuel` of them. -/
def climbs (parent : ℕ → Option ℕ) (ancestor : ℕ) : ℕ → Option ℕ → Bool
  | 0, _ => false
  | _ + 1, none => false
  | fuel + 1, some n => n = ancestor || climbs parent ancestor fuel (parent n)

/-- Whether the one namespace is the other or one of its ancestors.  A parent has a smaller id,
so the walk is over before the fuel is. -/
def userNsIsAncestor (ancestor descendant : ℕ) : Bool :=
  climbs w.parent ancestor (descendant + 1) (some descendant)

variable (opener : FileCred)

/-- The opener is privileged in the parent. -/
def hasCapInParent (target cap : ℕ) : Bool :=
  match w.parent target with
  | some parent => opener.hasCap cap && w.userNsIsAncestor opener.userNamespace parent
  | none => false

/-- Whether the opener may write any valid map of this kind. -/
def privileged (owner : ℕ) : IdMapKind → Bool
  | .uid => w.hasCapInParent opener owner CAP_SETUID
  | .gid => w.hasCapInParent opener owner CAP_SETGID
  | .projid => true

/-- The id an unprivileged opener may map. -/
def writerOwnId : IdMapKind → UInt32
  | .uid => opener.uid
  | .gid => opener.gid
  | .projid => 0

/-- One `write(2)` of a map file. -/
def updateMap (owner : ℕ) (kind : IdMapKind) (src : WriteBuf) :
    Except VfsError (UserNsWorld × ℕ) := do
  let extents ← parseExtents src
  let w' ← (w.writeMap owner kind (w.privileged opener owner kind) (writerOwnId opener kind)
    extents).mapError UserNsError.toVfs
  pure (w', src.len)

/-- `SETGROUPS_BUF_MAX`. -/
def SETGROUPS_BUF_MAX : ℕ := 8

def parseSetgroups (src : WriteBuf) : Except VfsError SetgroupsPolicy :=
  if SETGROUPS_BUF_MAX ≤ src.len then .error .einval
  else match src.text with
    | none => .error .einval
    | some text =>
      let text := (text.reverse.dropWhile (· = '\n')).reverse
      if text = ['a', 'l', 'l', 'o', 'w'] then .ok .allow
      else if text = ['d', 'e', 'n', 'y'] then .ok .deny
      else .error .einval

/-- One `write(2)` of the `setgroups` file. -/
def updateSetgroups (owner : ℕ) (src : WriteBuf) : Except VfsError (UserNsWorld × ℕ) := do
  if !opener.hasCap CAP_SYS_ADMIN || !w.userNsIsAncestor opener.userNamespace owner then
    .error .eperm
  else
    let policy ← parseSetgroups src
    let w' ← (w.writeSetgroups owner policy).mapError UserNsError.toVfs
    pure (w', src.len)

/-- A new namespace below `parent`, with its creator recorded. -/
def unshare (parent : ℕ) (euid : UInt32) : UserNsWorld where
  nextId := w.nextId + 1
  live := update w.live w.nextId true
  parent := update w.parent w.nextId (some parent)
  state := update w.state w.nextId
    (some { w.entry w.nextId with ownerEuid := some euid })

/-- A live namespace has this one as its parent. -/
def hasLiveChild (ns : ℕ) : Bool :=
  (List.range w.nextId).any fun child => w.live child && w.parent child = some ns

/-- The last reference to a namespace goes, and its finalizer removes its state. -/
def release (ns : ℕ) : UserNsWorld :=
  { w with live := update w.live ns false, state := update w.state ns none }

end UserNsWorld

/-- An event of the system. -/
inductive UserNsEvent
  | unshare (parent : ℕ) (euid : UInt32)
  | updateMap (opener : FileCred) (owner : ℕ) (kind : IdMapKind) (src : WriteBuf)
  | updateSetgroups (opener : FileCred) (owner : ℕ) (src : WriteBuf)
  | release (ns : ℕ)

namespace UserNsWorld

/-- What an answered write leaves: a refused one leaves everything. -/
def afterWrite (w : UserNsWorld) : Except VfsError (UserNsWorld × ℕ) → UserNsWorld
  | .ok (w', _) => w'
  | .error _ => w

/-- One event.  A namespace has a child only while it is live, and goes only after its
children. -/
def step (w : UserNsWorld) : UserNsEvent → UserNsWorld
  | .unshare parent euid => if w.live parent then w.unshare parent euid else w
  | .updateMap opener owner kind src =>
    if w.live owner then w.afterWrite (w.updateMap opener owner kind src) else w
  | .updateSetgroups opener owner src =>
    if w.live owner then w.afterWrite (w.updateSetgroups opener owner src) else w
  | .release ns => if ns = 0 || w.hasLiveChild ns then w else w.release ns

/-! ### The tree and its invariant -/

/-- Above or equal, over the parents. -/
def Ancestor (w : UserNsWorld) (a n : ℕ) : Prop :=
  Relation.ReflTransGen (fun x y => w.parent y = some x) a n

/-- What every run keeps: parents are older and stay live, ids are fresh, and installed maps are
valid. -/
structure WellFormed (w : UserNsWorld) : Prop where
  parent_lt : ∀ n p, w.parent n = some p → p < n
  parent_live : ∀ n p, w.live n → w.parent n = some p → w.live p
  live_lt : ∀ n, w.live n → n < w.nextId
  parent_fresh : ∀ n, w.nextId ≤ n → w.parent n = none
  state_fresh : ∀ n, w.nextId ≤ n → w.state n = none
  valid : ∀ n s kind m, w.state n = some s → s.map kind = some m → ValidMap m

variable {w w' : UserNsWorld}

theorem climbs_iff (hlt : ∀ n p, w.parent n = some p → p < n) :
    ∀ {fuel n : ℕ}, n < fuel → (climbs w.parent a fuel (some n) = true ↔ w.Ancestor a n) := by
  intro fuel
  induction fuel with
  | zero => intro n h; exact absurd h (Nat.not_lt_zero n)
  | succ fuel ih =>
  intro n hn
  rw [climbs, Bool.or_eq_true, decide_eq_true_iff]
  constructor
  · rintro (rfl | h)
    · exact .refl
    cases hp : w.parent n with
    | none =>
      rw [hp] at h
      cases fuel <;> cases h
    | some p =>
      rw [hp] at h
      have hpn := hlt n p hp
      exact ((ih (by omega)).mp h).tail hp
  intro h
  rcases Relation.ReflTransGen.cases_tail h with rfl | ⟨p, hap, hp⟩
  · exact .inl rfl
  right
  have hp' : w.parent n = some p := hp
  have hpn := hlt n p hp'
  rw [hp']
  exact (ih (by omega)).mpr hap

/-- **The walk over the parents decides the ancestor relation.** -/
theorem userNsIsAncestor_iff (hw : w.WellFormed) : w.userNsIsAncestor a n = true ↔ w.Ancestor a n :=
  climbs_iff hw.parent_lt (Nat.lt_succ_self n)

/-! ### What the writers do -/

theorem ne_zero_of_writable {u : Unit} (h : w.requireWritableOwner owner = .ok u) : owner ≠ 0 := by
  rintro rfl
  cases h

variable {kind : IdMapKind}

/-- An accepted write of a map: the map was empty, the extents are valid, only this one map of this
one namespace changes, and `setgroups` was denied before a `gid_map` without the capability. -/
theorem writeMap_ok {cap : Bool} {own : UInt32} {extents : List IdMapExtent}
    (h : w.writeMap owner kind cap own extents = .ok w') :
    owner ≠ 0 ∧ ValidMap extents ∧ (w.entry owner).map kind = none ∧
      (kind = .gid → cap = false → (w.entry owner).setgroups = .deny) ∧
      w' = w.putState owner { w.entry owner with
        map := update (w.entry owner).map kind (some extents) } := by
  obtain ⟨u, hr, h⟩ := bind_eq_ok.mp h
  obtain ⟨u', hv, h⟩ := bind_eq_ok.mp h
  obtain ⟨-, h⟩ := ite_error_eq_ok.mp h
  obtain ⟨hnone, h⟩ := ite_error_eq_ok.mp h
  obtain ⟨hdeny, h⟩ := ite_error_eq_ok.mp h
  refine ⟨ne_zero_of_writable hr, validateExtents_ok (mapError_eq_ok.mp hv), ?_, ?_, ?_⟩
  · exact Option.not_isSome_iff_eq_none.mp hnone
  · simpa using hdeny
  · exact (Except.ok.inj h).symm

theorem writeSetgroups_ok {policy : SetgroupsPolicy} (h : w.writeSetgroups owner policy = .ok w') :
    owner ≠ 0 ∧ (w.entry owner).map .gid = none ∧
      w' = w.putState owner { w.entry owner with setgroups := policy } := by
  obtain ⟨u, hr, h⟩ := bind_eq_ok.mp h
  obtain ⟨hnone, h⟩ := ite_error_eq_ok.mp h
  exact ⟨ne_zero_of_writable hr, Option.not_isSome_iff_eq_none.mp hnone, (Except.ok.inj h).symm⟩

variable {src : WriteBuf}

/-- **An accepted write installs the extents of its text in the one map that was empty.** -/
theorem updateMap_ok {opener : FileCred} (h : w.updateMap opener owner kind src = .ok (w', n)) :
    ∃ extents, parseExtents src = .ok extents ∧ owner ≠ 0 ∧ ValidMap extents ∧
      (w.entry owner).map kind = none ∧
      (kind = .gid → w.privileged opener owner kind = false → (w.entry owner).setgroups = .deny) ∧
      w' = w.putState owner { w.entry owner with
        map := update (w.entry owner).map kind (some extents) } := by
  obtain ⟨extents, hp, h⟩ := bind_eq_ok.mp h
  obtain ⟨w'', hw, h⟩ := bind_eq_ok.mp h
  obtain rfl : w'' = w' := congrArg Prod.fst (Except.ok.inj h)
  exact ⟨extents, hp, writeMap_ok (mapError_eq_ok.mp hw)⟩

theorem updateSetgroups_ok {opener : FileCred}
    (h : w.updateSetgroups opener owner src = .ok (w', n)) :
    ∃ policy, parseSetgroups src = .ok policy ∧ owner ≠ 0 ∧ (w.entry owner).map .gid = none ∧
      w' = w.putState owner { w.entry owner with setgroups := policy } := by
  obtain ⟨-, h⟩ := ite_error_eq_ok.mp h
  obtain ⟨policy, hp, h⟩ := bind_eq_ok.mp h
  obtain ⟨w'', hw, h⟩ := bind_eq_ok.mp h
  obtain rfl : w'' = w' := congrArg Prod.fst (Except.ok.inj h)
  exact ⟨policy, hp, writeSetgroups_ok (mapError_eq_ok.mp hw)⟩

theorem afterWrite_cases (w : UserNsWorld) (r : Except VfsError (UserNsWorld × ℕ)) :
    w.afterWrite r = w ∨ ∃ n, r = .ok (w.afterWrite r, n) := by
  cases r with
  | error => exact .inl rfl
  | ok r => exact .inr ⟨r.2, rfl⟩

/-- What an event does: nothing, or what its call does. -/
theorem step_cases (w : UserNsWorld) (e : UserNsEvent) : w.step e = w ∨
    match e with
    | .unshare parent euid => w.live parent ∧ w.step e = w.unshare parent euid
    | .updateMap opener owner kind src =>
      w.live owner ∧ ∃ n, w.updateMap opener owner kind src = .ok (w.step e, n)
    | .updateSetgroups opener owner src =>
      w.live owner ∧ ∃ n, w.updateSetgroups opener owner src = .ok (w.step e, n)
    | .release ns => w.hasLiveChild ns = false ∧ w.step e = w.release ns := by
  cases e <;> rw [step] <;> split
  case unshare.isTrue hp => exact .inr ⟨hp, rfl⟩
  case updateMap.isTrue hl | updateSetgroups.isTrue hl =>
    exact (w.afterWrite_cases _).imp_right fun h => ⟨hl, h⟩
  case release.isFalse h =>
    rw [Bool.not_eq_true, Bool.or_eq_false_iff] at h
    exact .inr ⟨h.2, rfl⟩
  all_goals exact .inl rfl

/-! ### Every event keeps the tree -/

theorem putState_state (owner : ℕ) (s : UserNsState) (n : ℕ) :
    (w.putState owner s).state n = if n = owner then some s else w.state n :=
  update_apply ..

theorem unshare_live (parent : ℕ) (euid : UInt32) (n : ℕ) :
    (w.unshare parent euid).live n = if n = w.nextId then true else w.live n :=
  update_apply ..

theorem unshare_parent (parent : ℕ) (euid : UInt32) (n : ℕ) :
    (w.unshare parent euid).parent n = if n = w.nextId then some parent else w.parent n :=
  update_apply ..

theorem unshare_state (parent : ℕ) (euid : UInt32) (n : ℕ) :
    (w.unshare parent euid).state n =
      if n = w.nextId then some { w.entry w.nextId with ownerEuid := some euid } else w.state n :=
  update_apply ..

theorem release_live (ns n : ℕ) : (w.release ns).live n = if n = ns then false else w.live n :=
  update_apply ..

theorem release_state (ns n : ℕ) : (w.release ns).state n = if n = ns then none else w.state n :=
  update_apply ..

theorem WellFormed.boot : boot.WellFormed where
  parent_lt _ _ h := by cases h
  parent_live _ _ _ h := by cases h
  live_lt n h := by
    obtain rfl : n = 0 := of_decide_eq_true h
    exact Nat.one_pos
  parent_fresh _ _ := rfl
  state_fresh _ _ := rfl
  valid _ _ _ _ h := by cases h

variable (hw : w.WellFormed)
include hw

/-- A new state of a live namespace keeps the tree where its maps are valid. -/
theorem WellFormed.putState {s : UserNsState} (hlive : w.live owner)
    (hs : ∀ kind m, s.map kind = some m → ValidMap m) : (w.putState owner s).WellFormed where
  parent_lt := hw.parent_lt
  parent_live := hw.parent_live
  live_lt := hw.live_lt
  parent_fresh := hw.parent_fresh
  state_fresh n hn := by
    have hne : n ≠ owner := by
      rintro rfl
      exact absurd (hw.live_lt n hlive) (Nat.not_lt.mpr hn)
    rw [putState_state, if_neg hne]
    exact hw.state_fresh n hn
  valid n s' kind m hn hm := by
    rw [putState_state] at hn
    split at hn
    · cases hn
      exact hs kind m hm
    · exact hw.valid n s' kind m hn hm

/-- The maps of a namespace's state are valid, also where it has none yet. -/
theorem WellFormed.entry_valid {m : List IdMapExtent}
    (h : (w.entry owner).map kind = some m) : ValidMap m := by
  unfold entry at h
  cases hs : w.state owner with
  | none => rw [hs] at h; cases h
  | some s => rw [hs] at h; exact hw.valid owner s kind m hs h

theorem WellFormed.unshare {parent : ℕ} (hp : w.live parent) (euid : UInt32) :
    (w.unshare parent euid).WellFormed := by
  have hplt := hw.live_lt parent hp
  have hlive : ∀ {n : ℕ}, w.live n → (w.unshare parent euid).live n := by
    intro n h
    have hn := hw.live_lt n h
    rwa [unshare_live, if_neg (by omega)]
  refine ⟨?_, ?_, ?_, ?_, ?_, ?_⟩
  · intro n p h
    rw [unshare_parent] at h
    split_ifs at h with hn
    · cases h
      exact hn ▸ hplt
    · exact hw.parent_lt n p h
  · intro n p hl h
    rw [unshare_parent] at h
    rw [unshare_live] at hl
    split_ifs at h with hn
    · cases h
      exact hlive hp
    rw [if_neg hn] at hl
    exact hlive (hw.parent_live n p hl h)
  · intro n hl
    rw [unshare_live] at hl
    show n < w.nextId + 1
    split at hl
    · omega
    · have := hw.live_lt n hl
      omega
  · intro n hn
    have hn' : w.nextId + 1 ≤ n := hn
    rw [unshare_parent, if_neg (by omega)]
    exact hw.parent_fresh n (by omega)
  · intro n hn
    have hn' : w.nextId + 1 ≤ n := hn
    rw [unshare_state, if_neg (by omega)]
    exact hw.state_fresh n (by omega)
  intro n s kind m hs hm
  rw [unshare_state] at hs
  split at hs
  · cases hs
    exact hw.entry_valid hm
  · exact hw.valid n s kind m hs hm

theorem hasLiveChild_of {p : ℕ} (hl : w.live n) (hp : w.parent n = some p) :
    w.hasLiveChild p = true := by
  refine List.any_eq_true.mpr ⟨n, List.mem_range.mpr (hw.live_lt n hl), ?_⟩
  rw [hl, hp]
  simp

/-- A namespace without live children can go. -/
theorem WellFormed.release {ns : ℕ} (hc : w.hasLiveChild ns = false) :
    (w.release ns).WellFormed := by
  have hlive : ∀ {n : ℕ}, (w.release ns).live n = true → w.live n = true := by
    intro n h
    rw [release_live] at h
    split at h
    · cases h
    · exact h
  refine ⟨hw.parent_lt, ?_, fun n h => hw.live_lt n (hlive h), hw.parent_fresh, ?_, ?_⟩
  · intro n p hl hp
    have hpn : p ≠ ns := by
      rintro rfl
      rw [hasLiveChild_of hw (hlive hl) hp] at hc
      cases hc
    rw [release_live, if_neg hpn]
    exact hw.parent_live n p (hlive hl) hp
  · intro n hn
    rw [release_state]
    split
    · rfl
    · exact hw.state_fresh n hn
  intro n s kind m hs hm
  rw [release_state] at hs
  split at hs
  · cases hs
  · exact hw.valid n s kind m hs hm

/-- **Every event keeps the tree.** -/
theorem WellFormed.step (e : UserNsEvent) : (w.step e).WellFormed := by
  rcases w.step_cases e with hsame | h
  · rwa [hsame]
  cases e with
  | unshare parent euid =>
    rw [h.2]
    exact hw.unshare h.1 euid
  | updateMap opener owner kind =>
    obtain ⟨hl, n, hr⟩ := h
    obtain ⟨extents, -, -, hv, -, -, hw'⟩ := updateMap_ok hr
    rw [hw']
    refine hw.putState hl fun k m hm => ?_
    by_cases hk : k = kind
    · subst hk
      cases (update_self k _ _).symm.trans hm
      exact hv
    · exact hw.entry_valid ((update_of_ne hk _ _).symm.trans hm)
  | updateSetgroups =>
    obtain ⟨hl, n, hr⟩ := h
    obtain ⟨policy, -, -, -, hw'⟩ := updateSetgroups_ok hr
    rw [hw']
    exact hw.putState hl fun k m hm => hw.entry_valid hm
  | release =>
    rw [h.2]
    exact hw.release h.1

end UserNsWorld

end Oxide
