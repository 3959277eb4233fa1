/-
Which host ids a user namespace can name.

* `Contained`: every host id a namespace can name is nameable in its parent;
* `Confined`: and in every ancestor, so that no host id is to be had through a descendant;
* `contained_iff_writesNameable`: **a run keeps both exactly if every accepted write of a
  `uid_map` or `gid_map` names host ids that the parent can name**;
* `grandchildMapsRoot_escapes`: the code stores the ids of the text as they are: below a
  namespace that maps the host id 100000 alone, a writer of that namespace maps the host's root.
-/
import Oxide.UserNs

namespace Oxide.UserNsWorld

variable {w w' : UserNsWorld}
variable {kind : IdMapKind} {n ns owner : ℕ}

section

variable (w : UserNsWorld)

/-- Some namespace id stands for the host id. -/
def Nameable (ns : ℕ) (kind : IdMapKind) (host : UInt32) : Prop :=
  ∃ nsId, w.toHost ns kind nsId = some host

/-- Every host id a namespace can name is nameable in its parent. -/
def Contained : Prop :=
  ∀ ns parent, w.live ns → w.parent ns = some parent → ∀ kind : IdMapKind,
    kind.writeNeedsPrivilege → ∀ host, w.Nameable ns kind host → w.Nameable parent kind host

/-- Every host id a namespace can name is nameable in all its ancestors. -/
def Confined : Prop :=
  ∀ a ns, w.live ns → w.Ancestor a ns → ∀ kind : IdMapKind,
    kind.writeNeedsPrivilege → ∀ host, w.Nameable ns kind host → w.Nameable a kind host

/-- What a write has to meet: if it is accepted, the parent can name every host id that the
written extents make nameable. -/
def WritesNameable : UserNsEvent → Prop
  | .updateMap opener owner kind src =>
    w.live owner → kind.writeNeedsPrivilege → (w.updateMap opener owner kind src).isOk →
      ∀ parent, w.parent owner = some parent → ∀ extents, parseExtents src = .ok extents →
        ∀ e ∈ extents, ∀ id, e.Covers id → id ≠ INVALID_ID → w.Nameable parent kind (e.hostOf id)
  | _ => True

end

/-! ### One level and all levels -/

theorem Contained.confined (hw : w.WellFormed) (h : w.Contained) : w.Confined := by
  intro a ns hl hanc kind hk host hn
  induction hanc with
  | refl => exact hn
  | tail _ hp ih => exact ih (hw.parent_live _ _ hl hp) (h _ _ hl hp kind hk host hn)

/-! ### The maps after an event -/

theorem nameable_congr (h : w'.withMap ns kind = w.withMap ns kind) (host : UInt32) :
    w'.Nameable ns kind host ↔ w.Nameable ns kind host := by
  unfold Nameable toHost
  rw [h]

theorem withMap_congr (h : w'.state ns = w.state ns) (kind : IdMapKind) :
    w'.withMap ns kind = w.withMap ns kind := by
  unfold withMap
  rw [h]

/-- A map read through the state it has or would get. -/
theorem withMap_eq_entry (hns : ns ≠ 0) (kind : IdMapKind) :
    w.withMap ns kind = ((w.entry ns).map kind).getD [] := by
  rw [withMap, if_neg hns, entry]
  cases w.state ns <;> rfl

theorem putState_withMap_self (ho : owner ≠ 0) (s : UserNsState) (kind : IdMapKind) :
    (w.putState owner s).withMap owner kind = (s.map kind).getD [] := by
  rw [withMap, if_neg ho, putState_state, if_pos rfl]
  rfl

theorem putState_withMap_of_ne (h : ns ≠ owner) (s : UserNsState) (kind : IdMapKind) :
    (w.putState owner s).withMap ns kind = w.withMap ns kind :=
  withMap_congr ((putState_state owner s ns).trans (if_neg h)) kind

/-- An empty map names nothing. -/
theorem not_nameable_of_empty (h : w.withMap ns kind = []) (host : UInt32) :
    ¬ w.Nameable ns kind host := by
  rintro ⟨id, hid⟩
  rw [toHost, h] at hid
  split at hid <;> cases hid

/-- A valid map names the host ids of its extents, up to the id that names nothing. -/
theorem nameable_iff (hv : ValidMap (w.withMap ns kind)) (host : UInt32) : w.Nameable ns kind host ↔
      ∃ e ∈ w.withMap ns kind, ∃ id, e.Covers id ∧ id ≠ INVALID_ID ∧ host = e.hostOf id := by
  constructor
  · rintro ⟨id, hid⟩
    rw [toHost] at hid
    split at hid
    · cases hid
    case isFalse hne =>
      obtain ⟨e, he, hc, rfl⟩ := hv.toHostChecked_eq_some_iff.mp hid
      exact ⟨e, he, id, hc, hne, rfl⟩
  rintro ⟨e, he, id, hc, hne, rfl⟩
  refine ⟨id, ?_⟩
  rw [toHost, if_neg hne]
  exact hv.toHostChecked_eq_some_iff.mpr ⟨e, he, hc, rfl⟩

/-! ### Events other than the write of a map -/

/-- A new namespace names nothing. -/
theorem Contained.unshare (hw : w.WellFormed) (h : w.Contained) {parent : ℕ} (euid : UInt32)
    (hp : w.live parent) : (w.unshare parent euid).Contained := by
  intro ns p hl hpar kind hk host hn
  have hold : ∀ n, n ≠ w.nextId →
      (w.unshare parent euid).withMap n kind = w.withMap n kind := fun n hne =>
    withMap_congr ((unshare_state parent euid n).trans (if_neg hne)) kind
  rw [unshare_live] at hl
  rw [unshare_parent] at hpar
  by_cases hnew : ns = w.nextId
  · subst hnew
    -- the fresh id has no state yet, so the recorded one has no map
    refine absurd hn (not_nameable_of_empty ?_ host)
    have hpos := hw.live_lt parent hp
    rw [withMap, if_neg (by omega), unshare_state, if_pos rfl, entry,
      hw.state_fresh w.nextId (Nat.le_refl _)]
    rfl
  rw [if_neg hnew] at hl hpar
  have hpne : p ≠ w.nextId := Nat.ne_of_lt (hw.live_lt p (hw.parent_live ns p hl hpar))
  rw [nameable_congr (hold p hpne)]
  rw [nameable_congr (hold ns hnew)] at hn
  exact h ns p hl hpar kind hk host hn

theorem Contained.release (hw : w.WellFormed) (h : w.Contained) (hc : w.hasLiveChild ns = false) :
    (w.release ns).Contained := by
  intro n p hl hpar kind hk host hn
  rw [release_live] at hl
  split at hl
  · cases hl
  case isFalse hne =>
  have hpne : p ≠ ns := by
    rintro rfl
    rw [hasLiveChild_of hw hl hpar] at hc
    cases hc
  rw [nameable_congr (withMap_congr ((release_state ns p).trans (if_neg hpne)) kind)]
  rw [nameable_congr (withMap_congr ((release_state ns n).trans (if_neg hne)) kind)] at hn
  exact h n p hl hpar kind hk host hn

variable {opener : FileCred} {src : WriteBuf}

/-- The `setgroups` file leaves the maps. -/
theorem updateSetgroups_withMap (h : w.updateSetgroups opener owner src = .ok (w', n)) :
    w'.live = w.live ∧ w'.parent = w.parent ∧
      ∀ ns kind, w'.withMap ns kind = w.withMap ns kind := by
  obtain ⟨policy, -, ho, -, rfl⟩ := updateSetgroups_ok h
  refine ⟨rfl, rfl, fun ns kind => ?_⟩
  by_cases hns : ns = owner
  · subst hns
    rw [putState_withMap_self ho, withMap_eq_entry ho]
  · exact putState_withMap_of_ne hns _ kind

/-! ### The write of a map -/

/-- An accepted write of a contained world leaves it contained exactly if the parent can name
what it writes. -/
theorem contained_updateMap_iff (hw : w.WellFormed) (h : w.Contained)
    (hl : w.live owner) (hr : w.updateMap opener owner kind src = .ok (w', n)) :
    w.WritesNameable (.updateMap opener owner kind src) ↔ w'.Contained := by
  obtain ⟨extents, hparse, ho, hvalid, hnone, -, rfl⟩ := updateMap_ok hr
  let s : UserNsState := { w.entry owner with
    map := Function.update (w.entry owner).map kind (some extents) }
  have hmap : ∀ k, s.map k = if k = kind then some extents else (w.entry owner).map k :=
    fun k => Function.update_apply ..
  have hself : (w.putState owner s).withMap owner kind = extents := by
    rw [putState_withMap_self ho, hmap, if_pos rfl]
    rfl
  have hsame : ∀ ns k, ns ≠ owner ∨ k ≠ kind →
      (w.putState owner s).withMap ns k = w.withMap ns k := by
    intro ns k hne
    by_cases hns : ns = owner
    · subst hns
      have hk : k ≠ kind := hne.resolve_left fun hc => hc rfl
      rw [putState_withMap_self ho, withMap_eq_entry ho, hmap, if_neg hk]
    · exact putState_withMap_of_ne hns s k
  have hempty : w.withMap owner kind = [] := by
    rw [withMap_eq_entry ho, hnone]
    rfl
  have hv : ValidMap ((w.putState owner s).withMap owner kind) := by
    rwa [hself]
  have hok : (w.updateMap opener owner kind src).isOk = true := by rw [hr]; rfl
  constructor
  · intro hwrite ns p hlive hpar k hk host hn
    have hpo : p ≠ ns := Nat.ne_of_lt (hw.parent_lt ns p hpar)
    by_cases hns : ns = owner
    · subst hns
      rw [nameable_congr (hsame p k (.inl hpo))]
      by_cases hkk : k = kind
      · -- the written map: each host id it names is one of the extents'
        subst hkk
        obtain ⟨e, he, id, hc, hne, rfl⟩ := (nameable_iff hv host).mp hn
        rw [hself] at he
        exact hwrite hl hk hok p hpar extents hparse e he id hc hne
      · rw [nameable_congr (hsame ns k (.inr hkk))] at hn
        exact h ns p hlive hpar k hk host hn
    rw [nameable_congr (hsame ns k (.inl hns))] at hn
    have hpn := h ns p hlive hpar k hk host hn
    by_cases hpk : p = owner ∧ k = kind
    · -- a child of the written namespace named nothing, since the map was empty
      obtain ⟨rfl, rfl⟩ := hpk
      exact absurd hpn (not_nameable_of_empty hempty host)
    rw [nameable_congr (hsame p k (by
      by_cases hp : p = owner
      · exact .inr fun hkk => hpk ⟨hp, hkk⟩
      · exact .inl hp))]
    exact hpn
  intro hcon _ hk _ p hpar extents' hparse' e he id hc hne
  obtain rfl : extents = extents' := Except.ok.inj (hparse.symm.trans hparse')
  have hpo : p ≠ owner := Nat.ne_of_lt (hw.parent_lt owner p hpar)
  rw [← nameable_congr (hsame p kind (.inl hpo))]
  refine hcon owner p hl hpar kind hk _ ((nameable_iff hv _).mpr ⟨e, ?_, id, hc, hne, rfl⟩)
  rwa [hself]

/-- An event of a contained world is admissible exactly if it leaves the world contained. -/
theorem writesNameable_iff (hw : w.WellFormed) (h : w.Contained) (e : UserNsEvent) :
    w.WritesNameable e ↔ (w.step e).Contained := by
  cases e with
  | unshare parent euid =>
    refine iff_of_true trivial ?_
    rw [step]
    split_ifs with hp
    · exact h.unshare hw euid hp
    · exact h
  | updateMap opener owner kind src =>
    rw [step]
    split
    case isFalse hl => exact iff_of_true (fun hl' => absurd hl' hl) h
    case isTrue hl =>
    cases hr : w.updateMap opener owner kind src with
    | error =>
      refine iff_of_true (fun _ _ hok => ?_) h
      rw [hr] at hok
      cases hok
    | ok => exact contained_updateMap_iff hw h hl hr
  | updateSetgroups opener owner src =>
    refine iff_of_true trivial ?_
    rw [step]
    split
    case isFalse => exact h
    cases hr : w.updateSetgroups opener owner src with
    | error => exact h
    | ok r =>
    obtain ⟨h1, h2, h3⟩ := updateSetgroups_withMap hr
    -- containment looks at live namespaces, their parents and their maps
    show r.1.Contained
    unfold Contained
    simp only [h1, h2, nameable_congr (h3 _ _)]
    exact h
  | release =>
  refine iff_of_true trivial ?_
  rw [step]
  split_ifs with hne
  · exact h
  rw [Bool.not_eq_true, Bool.or_eq_false_iff] at hne
  exact h.release hw hne.2

theorem Contained.boot : boot.Contained := by
  intro ns p _ hp
  cases hp

/-- **Containment along a run.**  Every state of the run is contained, and confined to any
ancestor, exactly if every accepted write of the run names host ids that the parent can name. -/
theorem contained_iff_writesNameable (events : List UserNsEvent) :
    Run.Always step (fun w => w.Contained ∧ w.Confined) boot events ↔
      Run.Meets step WritesNameable boot events := by
  have hboth : ∀ {w : UserNsWorld}, w.WellFormed → (w.Contained ∧ w.Confined ↔ w.Contained) :=
    fun hw => ⟨And.left, fun h => ⟨h, h.confined hw⟩⟩
  refine Run.always_iff_meets (I := WellFormed) (fun w e hw => hw.step e) ?_ .boot
    ((hboth .boot).mpr .boot)
  intro w e hw h
  rw [hboth (hw.step e)]
  exact writesNameable_iff hw h.1 e

/-! ### A run -/

/-- A write of one line. -/
def line (text : String) : WriteBuf := ⟨text.length, some text.toList⟩

/-- The root of a namespace with every capability. -/
def rootOf (ns : ℕ) (uid : UInt32) : FileCred := ⟨uid, uid, ns, 0xffffffffffffffff⟩

/-- A namespace that maps the host id 100000, and one inside it whose map the root of the first
writes. -/
def grandchildMapsRoot : List UserNsEvent :=
  [.unshare 0 0, .updateMap (rootOf 0 0) 1 .uid (line "0 100000 1"),
    .unshare 1 100000, .updateMap (rootOf 1 100000) 2 .uid (line "0 0 1")]

/-- **The inner namespace names the host's root, which the outer one cannot name.** -/
theorem grandchildMapsRoot_escapes :
    (grandchildMapsRoot.foldl step boot).toHost 2 .uid 0 = some 0 ∧
      ¬ (grandchildMapsRoot.foldl step boot).Contained ∧
      ¬ Run.Always step (fun w => w.Contained ∧ w.Confined) boot grandchildMapsRoot := by
  have hinner : (grandchildMapsRoot.foldl step boot).toHost 2 .uid 0 = some 0 := by
    decide +kernel
  have hnot : ¬ (grandchildMapsRoot.foldl step boot).Contained := by
    intro h
    obtain ⟨id, hid⟩ := h 2 1 (by decide +kernel) (by decide +kernel) .uid rfl 0 ⟨0, hinner⟩
    rw [toHost] at hid
    split at hid
    · cases hid
    -- the outer map sends its one id to 100000
    obtain ⟨e, he, hc, hhost⟩ := exists_of_toHostChecked hid
    obtain rfl := List.mem_singleton.mp he
    have hzero : id = 0 := by
      obtain ⟨-, hlt⟩ := hc
      refine UInt32.toNat_inj.mp ?_
      have hlt' : id.toNat < 1 := hlt
      show id.toNat = 0
      omega
    subst hzero
    cases hhost
  exact ⟨hinner, hnot, fun h => hnot h.last.1⟩

/-- **The walk over the parents, which are older, decides the ancestor relation.** -/
theorem ancestors_decided (events : List UserNsEvent) (a n : ℕ) :
    let w := events.foldl step boot
    (∀ p, w.parent n = some p → p < n) ∧ (w.userNsIsAncestor a n = true ↔ w.Ancestor a n) :=
  have h : WellFormed (events.foldl step boot) := Run.invariant (fun _ e h => h.step e) .boot
  ⟨h.parent_lt n, userNsIsAncestor_iff h⟩

end Oxide.UserNsWorld
