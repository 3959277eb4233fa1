/-
`setgroups` below an unprivileged `gid_map`.

A writer without `CAP_SETGID` in the parent may install a `gid_map` only after `setgroups` was
denied, and an installed `gid_map` locks the policy. A namespace below starts with the default
policy, which allows.

* `Guarded`: the namespaces, and the live ones whose `gid_map` such a writer installed;
* `Guarded.Denied`: `setgroups` is denied in these and in every namespace below them;
* `Guarded.denied_of_barren`: **it is denied in these along every run, and below them along every
  run that creates no namespace below one of them and installs no such map above a namespace**;
* `child_allows`: the child of such a namespace allows `setgroups`.
-/
import Oxide.UserNsContainment

namespace Oxide

namespace UserNsWorld

variable {w : UserNsWorld} {m n owner : ℕ}

def setgroupsPolicy (w : UserNsWorld) (owner : ℕ) : SetgroupsPolicy :=
  if owner = 0 then .allow else ((w.state owner).map UserNsState.setgroups).getD .allow

theorem setgroupsPolicy_eq (h : n ≠ 0) : w.setgroupsPolicy n = (w.entry n).setgroups := by
  rw [setgroupsPolicy, entry, if_neg h]
  cases w.state n <;> rfl

theorem entry_putState (s : UserNsState) :
    (w.putState owner s).entry m = if m = owner then s else w.entry m := by
  rw [entry, putState_state]
  split <;> rfl

theorem entry_congr {w' : UserNsWorld} (h : w'.state n = w.state n) : w'.entry n = w.entry n := by
  rw [entry, h, entry]

/-- A namespace after an event is the new one, or was there below the same parent; where its
`gid_map` was installed, that and its policy stay. -/
theorem step_live {e : UserNsEvent} (hl : (w.step e).live m) :
    (∃ parent euid, e = .unshare parent euid ∧ m = w.nextId ∧ (w.step e).parent m = some parent) ∨
    w.live m ∧ (w.step e).parent m = w.parent m ∧ ((w.entry m).map .gid ≠ none →
      ((w.step e).entry m).map .gid ≠ none ∧
        ((w.step e).entry m).setgroups = (w.entry m).setgroups) := by
  rcases w.step_cases e with hsame | hdone
  · rw [hsame] at hl ⊢
    exact .inr ⟨hl, rfl, fun h => ⟨h, rfl⟩⟩
  cases e with
  | unshare parent euid =>
    rw [hdone.2] at hl ⊢
    rw [unshare_live] at hl
    rw [unshare_parent]
    split_ifs at hl with hm
    · exact .inl ⟨parent, euid, rfl, hm, if_pos hm⟩
    have hstate : (w.unshare parent euid).state m = w.state m := by
      rw [unshare_state, if_neg hm]
    rw [entry_congr hstate, if_neg hm]
    exact .inr ⟨hl, rfl, fun h => ⟨h, rfl⟩⟩
  | updateMap =>
    obtain ⟨-, n, hr⟩ := hdone
    obtain ⟨extents, -, -, -, -, -, hw'⟩ := updateMap_ok hr
    rw [hw'] at hl ⊢
    refine .inr ⟨hl, rfl, fun hgid => ?_⟩
    rw [entry_putState]
    split_ifs with hm
    · subst hm
      refine ⟨?_, rfl⟩
      dsimp only
      rw [Function.update_apply]
      split
      · exact Option.some_ne_none _
      · exact hgid
    · exact ⟨hgid, rfl⟩
  | updateSetgroups opener owner =>
    obtain ⟨-, n, hr⟩ := hdone
    obtain ⟨policy, -, -, hnone, hw'⟩ := updateSetgroups_ok hr
    rw [hw'] at hl ⊢
    refine .inr ⟨hl, rfl, fun hgid => ?_⟩
    have hm : m ≠ owner := fun hm => hgid (hm ▸ hnone)
    rw [entry_putState, if_neg hm]
    exact ⟨hgid, rfl⟩
  | release ns =>
  rw [hdone.2] at hl ⊢
  rw [release_live] at hl
  split at hl
  · cases hl
  rename_i hm
  have hstate : (w.release ns).state m = w.state m := by
    rw [release_state, if_neg hm]
  rw [entry_congr hstate]
  exact .inr ⟨hl, rfl, fun h => ⟨h, rfl⟩⟩

/-- What is below a namespace is it, or below a live child of it. -/
theorem eq_of_childless (hw : w.WellFormed) (hc : w.hasLiveChild n = false) (hl : w.live m)
    (h : w.Ancestor n m) : m = n := by
  rcases Relation.ReflTransGen.cases_head h with rfl | ⟨x, hx, hxm⟩
  · rfl
  have hlive : w.live x := by
    clear hx h
    induction hxm with
    | refl => exact hl
    | tail _ hy ih => exact ih (hw.parent_live _ _ hl hy)
  rw [hasLiveChild_of hw hlive hx] at hc
  cases hc

end UserNsWorld

open UserNsWorld

/-- The namespaces, and the live ones whose `gid_map` a writer without `CAP_SETGID` in the parent
has installed. -/
structure Guarded where
  world : UserNsWorld
  restricted : List ℕ

namespace Guarded

variable {g : Guarded} {e : UserNsEvent} {m n : ℕ}

def boot : Guarded := ⟨UserNsWorld.boot, []⟩

/-- The event installs a `gid_map` without the capability. -/
def installs (g : Guarded) : UserNsEvent → Option ℕ
  | .updateMap opener owner .gid src =>
    if g.world.live owner && (g.world.updateMap opener owner .gid src).isOk &&
        !g.world.hasCapInParent opener owner CAP_SETGID then some owner else none
  | _ => none

def step (g : Guarded) (e : UserNsEvent) : Guarded :=
  ⟨g.world.step e, ((g.installs e).toList ++ g.restricted).filter (g.world.step e).live⟩

/-- `setgroups` is denied in the restricted namespaces. -/
def SelfDenied (g : Guarded) : Prop := ∀ n ∈ g.restricted, g.world.setgroupsPolicy n = .deny

/-- It is denied there and in every namespace below. -/
def Denied (g : Guarded) : Prop :=
  ∀ n ∈ g.restricted, ∀ m, g.world.live m → g.world.Ancestor n m → g.world.setgroupsPolicy m = .deny

/-- The condition on an event: nothing is created below a restricted namespace, and nothing is
below one when it becomes restricted. -/
def Barren (g : Guarded) (e : UserNsEvent) : Prop :=
  (∀ parent euid, e = .unshare parent euid → parent ∉ g.restricted) ∧
    ∀ n, g.installs e = some n → g.world.hasLiveChild n = false

/-- What holds along every run: the policy of a restricted namespace is denied and locked. -/
structure Locked (g : Guarded) : Prop where
  wellFormed : g.world.WellFormed
  locked : ∀ n ∈ g.restricted, g.world.live n ∧ n ≠ 0 ∧ (g.world.entry n).map .gid ≠ none ∧
    (g.world.entry n).setgroups = .deny

def Childless (g : Guarded) : Prop := ∀ n ∈ g.restricted, g.world.hasLiveChild n = false

theorem Locked.selfDenied (h : g.Locked) : g.SelfDenied := fun n hn => by
  obtain ⟨-, h0, -, hdeny⟩ := h.locked n hn
  exact (setgroupsPolicy_eq h0).trans hdeny

theorem Locked.denied (h : g.Locked) (hc : g.Childless) : g.Denied := fun n hn _ hl hanc =>
  eq_of_childless h.wellFormed (hc n hn) hl hanc ▸ h.selfDenied n hn

/-- What an event that installs a `gid_map` without the capability leaves. -/
theorem installs_some (h : g.installs e = some n) :
    n ≠ 0 ∧ ((g.step e).world.entry n).map .gid ≠ none ∧
      ((g.step e).world.entry n).setgroups = .deny ∧ ∀ parent euid, e ≠ .unshare parent euid := by
  unfold installs at h
  split at h
  swap
  · cases h
  case h_1 opener owner src =>
  split at h
  swap
  · cases h
  case isTrue hc =>
  obtain rfl := Option.some.inj h
  simp only [Bool.and_eq_true, Bool.not_eq_true'] at hc
  obtain ⟨⟨hl, hok⟩, hcap⟩ := hc
  cases hr : g.world.updateMap opener owner .gid src with
  | error =>
    rw [hr] at hok
    cases hok
  | ok r =>
  obtain ⟨extents, -, ho, -, -, hdeny, hw'⟩ := updateMap_ok hr
  have hstep : (g.step (.updateMap opener owner .gid src)).world = r.1 := by
    rw [step, UserNsWorld.step, if_pos hl, hr]
    rfl
  rw [hstep, hw', entry_putState, if_pos rfl]
  exact ⟨ho, by simp, hdeny rfl hcap, by simp⟩

theorem mem_step : n ∈ (g.step e).restricted ↔
    (g.installs e = some n ∨ n ∈ g.restricted) ∧ (g.step e).world.live n := by
  simp [step, or_and_right]

/-- **Every event keeps the policy of a restricted namespace locked.** -/
theorem Locked.step (h : g.Locked) (e : UserNsEvent) : (g.step e).Locked := by
  refine ⟨h.wellFormed.step e, fun n hn => ?_⟩
  obtain ⟨hi | hn, hl⟩ := mem_step.mp hn
  · obtain ⟨h0, hgid, hdeny, -⟩ := installs_some hi
    exact ⟨hl, h0, hgid, hdeny⟩
  obtain ⟨hlive, h0, hgid, hdeny⟩ := h.locked n hn
  rcases step_live hl with ⟨_, _, -, hnew, -⟩ | ⟨-, -, hkept⟩
  · exact absurd (h.wellFormed.live_lt n hlive) (by omega)
  · exact ⟨hl, h0, (hkept hgid).1, (hkept hgid).2.trans hdeny⟩

theorem Childless.step (hk : g.Locked) (h : g.Childless) (hb : g.Barren e) :
    (g.step e).Childless := by
  intro n hn
  rw [← Bool.not_eq_true]
  intro hchild
  obtain ⟨m, -, hm⟩ := List.any_eq_true.mp hchild
  rw [Bool.and_eq_true, decide_eq_true_iff] at hm
  rcases step_live hm.1 with ⟨parent, euid, he, -, hp⟩ | ⟨hlive, hp, -⟩
  · -- the child is the new namespace
    obtain rfl : parent = n := Option.some.inj (hp.symm.trans hm.2)
    rcases (mem_step.mp hn).1 with hi | hn
    · exact (installs_some hi).2.2.2 parent euid he
    · exact hb.1 parent euid he hn
  -- it was there before
  have hold := hasLiveChild_of hk.wellFormed hlive (hp.symm.trans hm.2)
  rcases (mem_step.mp hn).1 with hi | hn
  · rw [hb.2 n hi] at hold
    cases hold
  · rw [h n hn] at hold
    cases hold

theorem Locked.boot : boot.Locked := ⟨.boot, nofun⟩

/-- **`setgroups` stays denied in a restricted namespace along every run, and in every namespace
below it along the runs whose events meet the condition.** -/
theorem denied_of_barren (events : List UserNsEvent) :
    (events.foldl step boot).SelfDenied ∧
      (Run.Meets step Barren boot events → Run.Always step Denied boot events) := by
  refine ⟨(Run.invariant (I := Locked) (fun g e h => h.step e) .boot).selfDenied, fun h => ?_⟩
  exact h.always (I := fun g => g.Locked ∧ g.Childless)
    (fun g e hg hb => ⟨hg.1.step e, hg.2.step hg.1 hb⟩) ⟨.boot, nofun⟩ fun g hg => hg.1.denied hg.2

/-! ### A run -/

/-- A namespace whose `gid_map` its own root writes after denying `setgroups`. -/
def restrictedAlone : List UserNsEvent :=
  [.unshare 0 1000, .updateSetgroups (rootOf 1 1000) 1 (line "deny"),
    .updateMap (rootOf 1 1000) 1 .gid (line "0 1000 1")]

theorem restrictedAlone_denied : (restrictedAlone.foldl step boot).restricted = [1] ∧
    Run.Always step Denied boot restrictedAlone := by
  refine ⟨by decide +kernel, (denied_of_barren restrictedAlone).2
    ⟨⟨fun _ _ _ => List.not_mem_nil, nofun⟩, ⟨nofun, nofun⟩, ⟨nofun, fun n hn => ?_⟩, trivial⟩⟩
  obtain rfl : 1 = n := Option.some.inj (Eq.trans (by decide +kernel) hn)
  decide +kernel

/-- The same with a namespace below. -/
def restrictedChild : List UserNsEvent := restrictedAlone ++ [.unshare 1 1000]

theorem child_allows : ¬ Run.Always step Denied boot restrictedChild := by
  intro h
  have hd := h.last 1 (by decide +kernel) 2 (by decide +kernel)
    (.single (by decide +kernel))
  cases hd

end Guarded

end Oxide
