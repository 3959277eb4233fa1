/-
Releasing clusters.

A chain is released in one pass: each entry is read, cleared, and the walk goes on to where it
pointed. On a table with a cycle the walk comes back to an entry that is free by then, and stops,
so it never needs more steps than there are clusters. A truncation ends the chain at the last
cluster that is kept and releases the rest.

* `Fat.freeChainState`, `Fat.truncateChainState`: the code;
* `Fat.Freeing`, `Fat.freeLoop_spec`: on any table the walk ends, and releases no cluster twice;
* `Fat.Chain`, `Fat.freeLoop_chain`: on a chain it releases exactly that;
* `Fat.TableOps`: what the table's operations promise;
* `Fat.tableOps_iff`: they keep it on the volumes whose clusters are all below the bad mark.
-/
import Oxide.FatAlloc

namespace Oxide.Fat

open ByteBits List Fat.Geometry Option

variable {after keep last : ℕ}

/-! ### The code -/

/-- A walk that releases: the table, the count, and the clusters reported so far. -/
structure Freed where
  table : Bytes
  st : FreeState
  freed : List ℕ

/-- The loop.  Nothing is returned when its steps are used up. -/
def freeLoop (geo : Geometry) : ℕ → ℕ → Freed → Option (Freed × Except Errno ℕ)
  | 0, _, _ => none
  | fuel + 1, cluster, s =>
    if geo.validEntry cluster then
      match readEntry geo.width s.table cluster with
      | none => some (s, .error .eio)
      | some .free => some (s, .error .eio)
      | some link =>
        match writeEntry geo.width s.table cluster 0 with
        | none => some (s, .error .eio)
        | some t =>
          let s : Freed := ⟨t, s.st.gaveBack, s.freed ++ [cluster]⟩
          match link with
          | .next next => freeLoop geo fuel next s
          | _ => some (s, .ok s.freed.length)
    else some (s, .error .eio)

def freeChainState (geo : Geometry) (t : Bytes) (st : FreeState) (first : ℕ) :
    Option (Freed × Except Errno ℕ) :=
  freeLoop geo (geo.span + 1) first ⟨t, st, []⟩

/-- Where a chain goes on, nothing at its end. -/
def followLink (geo : Geometry) (t : Bytes) (cluster : ℕ) : Except Errno (Option ℕ) :=
  if geo.validEntry cluster then
    match readEntry geo.width t cluster with
    | some (.next next) => .ok (some next)
    | some .ends => .ok none
    | some .free => .error .eio
    | none => .error .eio
  else .error .eio

/-- The last cluster kept and the first to drop, `steps` links on. -/
def seekKept (geo : Geometry) (t : Bytes) : ℕ → ℕ → Except Errno (Option (ℕ × ℕ))
  | 0, cluster =>
    match followLink geo t cluster with
    | .error e => .error e
    | .ok none => .ok none
    | .ok (some next) => .ok (some (cluster, next))
  | steps + 1, cluster =>
    match followLink geo t cluster with
    | .error e => .error e
    | .ok none => .ok none
    | .ok (some next) => seekKept geo t steps next

def truncateChainState (geo : Geometry) (t : Bytes) (st : FreeState) (first keep : ℕ) :
    Option (Freed × Except Errno ℕ) :=
  if keep = 0 then freeChainState geo t st first
  else
    match seekKept geo t (keep - 1) first with
    | .error e => some (⟨t, st, []⟩, .error e)
    | .ok none => some (⟨t, st, []⟩, .ok 0)
    | .ok (some (lastKept, after)) =>
      match writeEntry geo.width t lastKept geo.width.endMark with
      | none => some (⟨t, st, []⟩, .error .eio)
      | some t => freeChainState geo t st after

variable {geo : Geometry} {t t' t0 : Bytes} {st : FreeState} {s s' : Freed} {cs ds : List ℕ}
  {c d k fuel : ℕ} {r : Except Errno ℕ}

/-! ### Any table -/

/-- A cluster of the volume whose entry is in the table and not zero. -/
structure Busy (geo : Geometry) (t : Bytes) (c : ℕ) : Prop where
  valid : geo.validEntry c = true
  holds : Holds geo.width t c
  raw : rawValue geo.width t c ≠ 0

/-- What one step of the loop does.  At a cluster that is not busy it stops and leaves everything;
else it clears the entry and then ends or goes on. -/
theorem freeLoop_succ (geo : Geometry) (fuel c : ℕ) (s : Freed) :
    (¬ Busy geo s.table c ∧ freeLoop geo (fuel + 1) c s = some (s, .error .eio)) ∨
    ∃ t, Busy geo s.table c ∧ Written geo.width s.table t c 0 ∧
      ((readEntry geo.width s.table c = some .ends ∧ freeLoop geo (fuel + 1) c s =
          some (⟨t, s.st.gaveBack, s.freed ++ [c]⟩, .ok (s.freed ++ [c]).length)) ∨
        ∃ d, readEntry geo.width s.table c = some (.next d) ∧ freeLoop geo (fuel + 1) c s =
          freeLoop geo fuel d ⟨t, s.st.gaveBack, s.freed ++ [c]⟩) := by
  rw [freeLoop]
  by_cases hv : geo.validEntry c = true
  · rw [if_pos hv]
    by_cases hh : Holds geo.width s.table c
    · by_cases hz : rawValue geo.width s.table c = 0
      · have hfree : readEntry geo.width s.table c = some .free := by
          simpa [isFree] using isFree_iff.mpr ⟨hh, hz⟩
        rw [hfree]
        exact .inl ⟨fun h => h.raw hz, rfl⟩
      obtain ⟨t, hw, hwr⟩ := writeEntry_written hh 0
      have hread : readEntry geo.width s.table c =
          some (classify geo.width (rawValue geo.width s.table c)) := by
        rw [readEntry, readRaw, if_pos hh, map_some]
      refine .inr ⟨t, ⟨hv, hh, hz⟩, hwr, ?_⟩
      unfold classify at hread
      rw [if_neg hz] at hread
      by_cases hend : rawValue geo.width s.table c ≥ geo.width.badMark
      · rw [if_pos hend] at hread
        rw [hread, hw]
        exact .inl ⟨rfl, rfl⟩
      · rw [if_neg hend] at hread
        rw [hread, hw]
        exact .inr ⟨_, rfl, rfl⟩
    · have hread : readEntry geo.width s.table c = none := by
        rw [readEntry, readRaw, if_neg hh, map_none]
      rw [hread]
      exact .inl ⟨fun h => hh h.holds, rfl⟩
  · rw [if_neg hv]
    exact .inl ⟨fun h => hv h.valid, rfl⟩

/-- A busy cluster of the volume that is cleared is one more free cluster. -/
theorem countFree_cleared (h : Busy geo t c) (hw : Written geo.width t t' c 0) :
    countFree geo t' = countFree geo t + 1 := by
  have hvalid : ∀ g ∈ [c], geo.validEntry g = true := fun g hg => mem_singleton.mp hg ▸ h.valid
  have hnow : isFree geo.width t' c = true :=
    isFree_iff.mpr ⟨hw.holds.mpr h.holds, by rw [hw.raw_self, Nat.zero_mod]⟩
  have hold : isFree geo.width t c = false :=
    Bool.eq_false_iff.mpr fun hfree => h.raw (isFree_iff.mp hfree).2
  rw [countFree_eq (nodup_singleton c) hvalid t', countFree_eq (nodup_singleton c) hvalid t,
    countP_others hw.length fun x hx => hw.raw_other fun hxc => hx (mem_singleton.mpr hxc)]
  rw [countP_singleton, countP_singleton, if_pos hnow, hold, if_neg Bool.false_ne_true]
  omega

theorem FreeState.Right.gaveBack (h : st.Right geo t)
    (hcount : countFree geo t' = countFree geo t + 1) : st.gaveBack.Right geo t' := by
  intro free hfree
  rw [gaveBack_free, map_eq_some_iff] at hfree
  obtain ⟨old, hold, rfl⟩ := hfree
  have hle := countFree_le geo t'
  have hmax := geo.max_lt
  unfold Geometry.span at hle
  rw [h old hold, hcount, Nat.mod_eq_of_lt (by omega)]

/-- **While clusters are released**: each of them was busy and is free, once, and nothing else has
changed. -/
structure Freeing (geo : Geometry) (t0 : Bytes) (s : Freed) : Prop where
  nodup : s.freed.Nodup
  busy : ∀ c ∈ s.freed, Busy geo t0 c
  cleared : Cleared geo.width t0 s.table s.freed
  right : s.st.Right geo s.table

theorem Freeing.nil (h : st.Right geo t) : Freeing geo t ⟨t, st, []⟩ :=
  ⟨nodup_nil, nofun, ⟨rfl, nofun, fun _ _ => rfl⟩, h⟩

/-- A walk has released no more clusters than there are. -/
theorem Freeing.length_le (h : Freeing geo t0 s) : s.freed.length ≤ geo.span := by
  have hsub := h.nodup.subperm fun c hc => mem_clusters.mpr (h.busy c hc).valid
  refine hsub.length_le.trans ?_
  rw [clusters, length_range']

theorem forall_mem_snoc {P : ℕ → Prop} (h : ∀ x ∈ cs, P x) (hc : P c) : ∀ x ∈ cs ++ [c], P x := by
  intro x hx
  rcases mem_append.mp hx with hx | hx
  · exact h x hx
  · exact mem_singleton.mp hx ▸ hc

theorem Freeing.step (h : Freeing geo t0 s) (hbusy : Busy geo s.table c)
    (hw : Written geo.width s.table t c 0) : Freeing geo t0 ⟨t, s.st.gaveBack, s.freed ++ [c]⟩ := by
  -- the entry is not zero, so the walk has not been here
  have hnew : c ∉ s.freed := fun hc => hbusy.raw (h.cleared.zero c hc)
  have hheld : Holds geo.width t0 c := by
    have hh := hbusy.holds
    unfold Holds at hh ⊢
    rwa [← h.cleared.length]
  refine ⟨?_, forall_mem_snoc h.busy ⟨hbusy.valid, hheld, h.cleared.raw hnew ▸ hbusy.raw⟩,
    ⟨hw.length.trans h.cleared.length, ?_, ?_⟩, h.right.gaveBack (countFree_cleared hbusy hw)⟩
  · rw [nodup_append]
    refine ⟨h.nodup, nodup_singleton c, fun a ha b hb hab => ?_⟩
    exact hnew (mem_singleton.mp hb ▸ hab ▸ ha)
  · refine forall_mem_snoc (fun x hx => ?_) ?_
    · rw [hw.raw_other fun hxc => hnew (hxc ▸ hx)]
      exact h.cleared.zero x hx
    · rw [hw.raw_self, Nat.zero_mod]
  · intro b hb
    rw [hw.bit, if_neg (hb c (mem_append_right _ mem_cons_self))]
    exact h.cleared.bits b fun x hx => hb x (mem_append_left _ hx)

/-- **The walk ends on any table**, and has released no cluster twice. -/
theorem freeLoop_spec (h : Freeing geo t0 s) (hfuel : geo.span < fuel + s.freed.length) (c : ℕ) :
    ∃ s' r, freeLoop geo fuel c s = some (s', r) ∧ Freeing geo t0 s' := by
  induction fuel generalizing c s with
  | zero =>
    have hle := h.length_le
    omega
  | succ fuel ih =>
  rcases freeLoop_succ geo fuel c s with ⟨-, hstop⟩ | ⟨t, hbusy, hw, hnext⟩
  · exact ⟨s, _, hstop, h⟩
  have hstep := h.step hbusy hw
  rcases hnext with ⟨-, hend⟩ | ⟨d, -, hgo⟩
  · exact ⟨_, _, hend, hstep⟩
  rw [hgo]
  refine ih hstep ?_ d
  rw [length_append, length_singleton]
  omega

theorem freeChainState_spec (h : st.Right geo t) (c : ℕ) :
    ∃ s r, freeChainState geo t st c = some (s, r) ∧ Freeing geo t s :=
  freeLoop_spec (Freeing.nil h) (Nat.lt_succ_self _) c

/-! ### Chains -/

/-- The clusters of a chain, in order: the last one has an end mark. -/
inductive Chain (geo : Geometry) (t : Bytes) : ℕ → List ℕ → Prop
  | last {c : ℕ} :
    geo.validEntry c = true → readEntry geo.width t c = some .ends → Chain geo t c [c]
  | link {c d : ℕ} {cs : List ℕ} : geo.validEntry c = true →
      readEntry geo.width t c = some (.next d) → Chain geo t d cs → Chain geo t c (c :: cs)

section

variable (h : Chain geo t c cs)
include h

theorem Chain.unique (h' : Chain geo t c ds) : cs = ds := by
  induction h generalizing ds with
  | last _ hread =>
    cases h' with
    | last => rfl
    | link _ hread' => cases hread.symm.trans hread'
  | link _ hread _ ih =>
  cases h' with
  | last _ hread' => cases hread.symm.trans hread'
  | link _ hread' hrest =>
    cases hread.symm.trans hread'
    rw [ih hrest]

/-- From each of its clusters a chain goes on to its end. -/
theorem Chain.tail (hd : d ∈ cs) : ∃ ds, Chain geo t d ds ∧ ds.length ≤ cs.length := by
  induction h with
  | @last c hv hread =>
    rw [mem_singleton.mp hd]
    exact ⟨[c], .last hv hread, Nat.le_refl _⟩
  | @link c e cs hv hread hrest ih =>
    rcases mem_cons.mp hd with rfl | hd
    · exact ⟨d :: cs, .link hv hread hrest, Nat.le_refl _⟩
    · obtain ⟨ds, hds, hle⟩ := ih hd
      exact ⟨ds, hds, hle.trans (Nat.le_succ _)⟩

/-- A chain comes to no cluster twice: it would never end. -/
theorem Chain.nodup : cs.Nodup := by
  induction h with
  | last _ _ => exact nodup_singleton _
  | link hv hread hrest ih =>
  refine nodup_cons.mpr ⟨fun hmem => ?_, ih⟩
  obtain ⟨ds, hds, hle⟩ := hrest.tail hmem
  rw [← (Chain.link hv hread hrest).unique hds, length_cons] at hle
  omega

theorem Chain.transport (hread : ∀ x ∈ cs, readEntry geo.width t' x = readEntry geo.width t x) :
    Chain geo t' c cs := by
  induction h with
  | last hv hr => exact .last hv ((hread _ mem_cons_self).trans hr)
  | link hv hr _ ih =>
    exact .link hv ((hread _ mem_cons_self).trans hr)
      (ih fun x hx => hread x (mem_cons_of_mem _ hx))

end

theorem Busy.of_read {link : Link} (hv : geo.validEntry c = true)
    (hread : readEntry geo.width t c = some link) (hne : link ≠ .free) : Busy geo t c := by
  have hholds : Holds geo.width t c := by
    by_contra hno
    unfold readEntry readRaw at hread
    rw [if_neg hno] at hread
    cases hread
  refine ⟨hv, hholds, fun hz => hne ?_⟩
  have hfree : readEntry geo.width t c = some .free :=
    of_decide_eq_true (isFree_iff.mpr ⟨hholds, hz⟩)
  exact Option.some.inj (hread.symm.trans hfree)

theorem Chain.busy (h : Chain geo t c cs) : Busy geo t c := by
  cases h with
  | last hv hr => exact .of_read hv hr nofun
  | link hv hr => exact .of_read hv hr nofun

/-- A walk that starts at a chain releases it. -/
theorem freeLoop_chain (h : Chain geo s.table c cs) (hrun : freeLoop geo fuel c s = some (s', r)) :
    s'.freed = s.freed ++ cs ∧ r = .ok s'.freed.length := by
  induction fuel generalizing c s cs with
  | zero => cases hrun
  | succ fuel ih =>
  rcases freeLoop_succ geo fuel c s with ⟨hno, -⟩ | ⟨t, -, hw, hnext⟩
  · exact absurd h.busy hno
  cases h with
  | last _ hr =>
    rcases hnext with ⟨-, hend⟩ | ⟨d, hread, -⟩
    · cases hrun.symm.trans hend
      exact ⟨rfl, rfl⟩
    · cases hr.symm.trans hread
  | @link _ e cs hv hr hrest =>
    rcases hnext with ⟨hread, -⟩ | ⟨d, hread, hgo⟩
    · cases hr.symm.trans hread
    cases hr.symm.trans hread
    have hnew := (nodup_cons.mp (Chain.link hv hr hrest).nodup).1
    have hrest' : Chain geo t _ cs := hrest.transport fun x hx =>
      readEntry_congr hw.length (hw.raw_other fun hxc => hnew (hxc ▸ hx))
    obtain ⟨hfreed, hr⟩ := ih hrest' (hgo ▸ hrun)
    refine ⟨?_, hr⟩
    rw [hfreed, append_assoc]
    rfl

/-- **On a chain the walk releases exactly its clusters.** -/
theorem freeChainState_chain (hst : st.Right geo t) (h : Chain geo t c cs) :
    ∃ s, freeChainState geo t st c = some (s, .ok cs.length) ∧ s.freed = cs ∧ Freeing geo t s := by
  obtain ⟨s, r, hrun, hfreeing⟩ := freeChainState_spec hst c
  have hfreed : s.freed = [] ++ cs ∧ r = .ok s.freed.length :=
    freeLoop_chain h hrun
  rw [nil_append] at hfreed
  refine ⟨s, ?_, hfreed.1, hfreeing⟩
  rw [hrun, hfreed.2, hfreed.1]

/-! ### Truncation -/

theorem followLink_some (h : followLink geo t c = .ok (some d)) :
    geo.validEntry c = true ∧ readEntry geo.width t c = some (.next d) := by
  unfold followLink at h
  split at h
  case isTrue hv =>
    split at h
    case h_1 hread =>
      cases h
      exact ⟨hv, hread⟩
    all_goals cases h
  · cases h

/-- The cluster found has a link to the one behind it. -/
theorem seekKept_found (h : seekKept geo t k c = .ok (some (last, after))) :
    geo.validEntry last = true ∧ readEntry geo.width t last = some (.next after) := by
  induction k generalizing c with
  | zero =>
    unfold seekKept at h
    split at h
    · cases h
    · cases h
    case h_3 hlink =>
      cases h
      exact followLink_some hlink
  | succ k ih =>
  unfold seekKept at h
  split at h
  · cases h
  · cases h
  · exact ih h

theorem Chain.followLink (h : Chain geo t c cs) :
    (cs = [c] ∧ followLink geo t c = .ok none) ∨
    ∃ d ds, cs = c :: ds ∧ followLink geo t c = .ok (some d) ∧ Chain geo t d ds := by
  rw [Fat.followLink, if_pos h.busy.valid]
  cases h with
  | last _ hr => exact .inl ⟨rfl, by rw [hr]⟩
  | link _ hr hrest => exact .inr ⟨_, _, rfl, by rw [hr], hrest⟩

theorem seekKept_chain (h : Chain geo t c cs) (k : ℕ) :
    (cs.length ≤ k + 1 ∧ seekKept geo t k c = .ok none) ∨
    ∃ last after, cs[k]? = some last ∧ seekKept geo t k c = .ok (some (last, after)) ∧
      Chain geo t after (cs.drop (k + 1)) := by
  induction k generalizing c cs with
  | zero =>
    rw [seekKept]
    rcases h.followLink with ⟨rfl, hlink⟩ | ⟨d, ds, rfl, hlink, hrest⟩
    · exact .inl ⟨Nat.le_refl _, by rw [hlink]⟩
    · exact .inr ⟨c, d, rfl, by rw [hlink], hrest⟩
  | succ k ih =>
  rw [seekKept]
  rcases h.followLink with ⟨rfl, hlink⟩ | ⟨d, ds, rfl, hlink, hrest⟩
  · exact .inl ⟨Nat.le_add_left _ _, by rw [hlink]⟩
  rw [hlink, length_cons]
  rcases ih hrest with ⟨hle, heq⟩ | hfound
  · exact .inl ⟨by omega, heq⟩
  · exact .inr hfound

/-- A chain whose entry at `k` becomes an end. -/
theorem Chain.cut (h : Chain geo t c cs) (hlast : cs[k]? = some last)
    (hkeep : ∀ x ∈ cs.take k, readEntry geo.width t' x = readEntry geo.width t x)
    (hend : readEntry geo.width t' last = some .ends) : Chain geo t' c (cs.take (k + 1)) := by
  induction k generalizing c cs with
  | zero =>
    cases h with
    | last hv =>
      cases hlast
      exact .last hv hend
    | link hv =>
      cases hlast
      exact .last hv hend
  | succ k ih =>
  cases h with
  | last => cases hlast
  | link hv hr hrest =>
    refine .link hv ((hkeep c mem_cons_self).trans hr) (ih hrest hlast fun x hx => ?_)
    exact hkeep x (mem_cons_of_mem _ hx)

/-- An end mark is written into a busy entry. -/
structure Ended (geo : Geometry) (t t' : Bytes) (last : ℕ) : Prop where
  busy : Busy geo t last
  written : Written geo.width t t' last geo.width.endMark

section

variable (h : Ended geo t t' last)
include h

theorem Ended.raw : rawValue geo.width t' last = geo.width.endMark := by
  rw [h.written.raw_self, Nat.mod_eq_of_lt (badMark_lt geo.width).2.2.2]

theorem Ended.reads : readEntry geo.width t' last = some .ends := by
  obtain ⟨h1, -, h3, -⟩ := badMark_lt geo.width
  unfold readEntry readRaw classify
  rw [if_pos (h.written.holds.mpr h.busy.holds), map_some, h.raw, if_neg (by omega), if_pos h3]

theorem Ended.busy_iff : Busy geo t' c ↔ Busy geo t c := by
  obtain ⟨h1, -, h3, -⟩ := badMark_lt geo.width
  by_cases hc : c = last
  · subst hc
    refine iff_of_true ⟨h.busy.valid, h.written.holds.mpr h.busy.holds, ?_⟩ h.busy
    rw [h.raw]
    omega
  · have hraw := h.written.raw_other hc
    exact ⟨fun hb => ⟨hb.valid, h.written.holds.mp hb.holds, hraw ▸ hb.raw⟩,
      fun hb => ⟨hb.valid, h.written.holds.mpr hb.holds, hraw.symm ▸ hb.raw⟩⟩

theorem Ended.right (hst : st.Right geo t) : st.Right geo t' := by
  have hcount : countFree geo t' = countFree geo t := by
    refine countP_congr fun c hc => ?_
    by_cases hcl : c = last
    · subst hcl
      have hbusy' := h.busy_iff.mpr h.busy
      exact iff_of_false (fun hf => hbusy'.raw (isFree_iff.mp hf).2)
        fun hf => h.busy.raw (isFree_iff.mp hf).2
    · rw [isFree_congr h.written.length (h.written.raw_other hcl)]
  intro free hfree
  rw [hcount]
  exact hst free hfree

end

theorem truncateChainState_found (hkeep : keep ≠ 0) (st : FreeState)
    (hseek : seekKept geo t (keep - 1) c = .ok (some (last, after))) :
    ∃ t', Ended geo t t' last ∧
      truncateChainState geo t st c keep = freeChainState geo t' st after := by
  obtain ⟨hv, hread⟩ := seekKept_found hseek
  have hbusy : Busy geo t last := .of_read hv hread nofun
  obtain ⟨t', hw, hwr⟩ := writeEntry_written hbusy.holds geo.width.endMark
  refine ⟨t', ⟨hbusy, hwr⟩, ?_⟩
  rw [truncateChainState, if_neg hkeep, hseek]
  dsimp only
  rw [hw]

/-- The outcomes of a truncation that keeps something. -/
theorem truncateChainState_keep (hkeep : keep ≠ 0) (t : Bytes) (st : FreeState) (c : ℕ) :
    (∃ r, truncateChainState geo t st c keep = some (⟨t, st, []⟩, r)) ∨
    ∃ last after t', Ended geo t t' last ∧
      truncateChainState geo t st c keep = freeChainState geo t' st after := by
  cases hseek : seekKept geo t (keep - 1) c with
  | error =>
    rw [truncateChainState, if_neg hkeep, hseek]
    exact .inl ⟨_, rfl⟩
  | ok found =>
  cases found with
  | none =>
    rw [truncateChainState, if_neg hkeep, hseek]
    exact .inl ⟨_, rfl⟩
  | some pair =>
    obtain ⟨t', hend, hrun⟩ := truncateChainState_found hkeep st hseek
    exact .inr ⟨pair.1, pair.2, t', hend, hrun⟩

/-! ### The promise -/

/-- The walk has ended, was at no cluster twice, and the count is right. -/
structure Safe (geo : Geometry) (t : Bytes) (s : Freed) : Prop where
  nodup : s.freed.Nodup
  busy : ∀ c ∈ s.freed, Busy geo t c
  right : s.st.Right geo s.table

theorem truncateChainState_spec (hst : st.Right geo t) (c keep : ℕ) :
    ∃ s r, truncateChainState geo t st c keep = some (s, r) ∧ Safe geo t s := by
  by_cases hkeep : keep = 0
  · obtain ⟨s, r, hrun, hf⟩ := freeChainState_spec hst c
    refine ⟨s, r, ?_, hf.nodup, hf.busy, hf.right⟩
    rw [truncateChainState, if_pos hkeep, hrun]
  rcases truncateChainState_keep hkeep t st c with ⟨r, hrun⟩ | ⟨last, after, t', hend, hrun⟩
  · exact ⟨_, r, hrun, nodup_nil, nofun, hst⟩
  · obtain ⟨s, r, hfree, hf⟩ := freeChainState_spec (hend.right hst) after
    exact ⟨s, r, hrun.trans hfree, hf.nodup, fun x hx => hend.busy_iff.mp (hf.busy x hx), hf.right⟩

/-- A run of clusters that were free has become one chain, and no other bit has changed. -/
structure NewChain (geo : Geometry) (t t' : Bytes) (got : List ℕ) : Prop where
  nodup : got.Nodup
  free : ∀ g ∈ got, geo.validEntry g = true ∧ isFree geo.width t g = true
  chain : ∀ first, got.head? = some first → Chain geo t' first got
  ended : ∀ last, got.getLast? = some last → rawValue geo.width t' last = geo.width.endMark
  size : t'.length = t.length
  bits : ∀ b, (∀ g ∈ got, ¬ InEntry geo.width g b) → bit t' b = bit t b

/-- A chain has been cut: the clusters behind the first `keep` are free, those are a chain, and only
the entry before the cut and those behind it have changed. -/
structure Cut (geo : Geometry) (t t' : Bytes) (first : ℕ) (cs : List ℕ) (keep : ℕ) : Prop where
  released : ∀ c ∈ cs.drop keep, isFree geo.width t' c = true
  kept : keep ≠ 0 → Chain geo t' first (cs.take keep)
  idle : cs.length ≤ keep → t' = t
  size : t'.length = t.length
  bits : ∀ b, (∀ c ∈ cs.drop (keep - 1), ¬ InEntry geo.width c b) → bit t' b = bit t b

/-- **What the operations of the allocation table promise.** -/
structure TableOps (geo : Geometry) : Prop where
  /-- With enough free entries an allocation succeeds. -/
  allocates : ∀ t st count, HoldsAll geo t → st.Right geo t → count ≤ countFree geo t →
    ∃ t' st' got, allocClusters geo t st count = ((t', st'), .ok got) ∧ got.length = count ∧
      NewChain geo t t' got ∧ st'.Right geo t'
  /-- With too few it fails, and leaves the table. -/
  refuses : ∀ t st count, HoldsAll geo t → st.Right geo t → countFree geo t < count →
    ∃ st' e, allocClusters geo t st count = ((t, st'), .error e) ∧ st'.Right geo t
  /-- A chain is released, or cut, exactly. -/
  frees : ∀ t st first cs, st.Right geo t → Chain geo t first cs →
    ∃ s, freeChainState geo t st first = some (s, .ok cs.length) ∧ s.freed = cs ∧
      Cut geo t s.table first cs 0 ∧ s.st.Right geo s.table
  truncates : ∀ t st first cs keep, st.Right geo t → Chain geo t first cs →
    ∃ s, truncateChainState geo t st first keep = some (s, .ok (cs.drop keep).length) ∧
      s.freed = cs.drop keep ∧ Cut geo t s.table first cs keep ∧ s.st.Right geo s.table
  /-- On any table both end, and release no cluster twice. -/
  freesAny : ∀ t st first, st.Right geo t →
    ∃ s r, freeChainState geo t st first = some (s, r) ∧ Safe geo t s
  truncatesAny : ∀ t st first keep, st.Right geo t →
    ∃ s r, truncateChainState geo t st first keep = some (s, r) ∧ Safe geo t s

theorem Freeing.isFree (h : Freeing geo t s) (hc : c ∈ s.freed) :
    isFree geo.width s.table c = true := by
  refine isFree_iff.mpr ⟨?_, h.cleared.zero c hc⟩
  have hh := (h.busy c hc).holds
  unfold Holds at hh ⊢
  rwa [h.cleared.length]

theorem freeChainState_cut (hst : st.Right geo t) (h : Chain geo t c cs) :
    ∃ s, freeChainState geo t st c = some (s, .ok cs.length) ∧ s.freed = cs ∧
      Cut geo t s.table c cs 0 ∧ s.st.Right geo s.table := by
  obtain ⟨s, hrun, hfreed, hf⟩ := freeChainState_chain hst h
  refine ⟨s, hrun, hfreed, ⟨fun x hx => hf.isFree (hfreed ▸ hx), fun hne => absurd rfl hne, ?_,
    hf.cleared.length, fun b hb => hf.cleared.bits b (hfreed ▸ hb)⟩, hf.right⟩
  intro hlen
  cases h with
  | last => cases hlen
  | link => cases hlen

theorem truncateChainState_cut (hst : st.Right geo t) (h : Chain geo t c cs) (keep : ℕ) :
    ∃ s, truncateChainState geo t st c keep = some (s, .ok (cs.drop keep).length) ∧
      s.freed = cs.drop keep ∧ Cut geo t s.table c cs keep ∧ s.st.Right geo s.table := by
  by_cases hkeep : keep = 0
  · subst hkeep
    exact freeChainState_cut hst h
  obtain ⟨k, rfl⟩ := Nat.exists_eq_succ_of_ne_zero hkeep
  rcases seekKept_chain h k with ⟨hle, hnone⟩ | ⟨last, after, hlast, hfound, hrest⟩
  · -- the chain is not longer than what is kept
    have hdrop : cs.drop (k + 1) = [] := drop_eq_nil_of_le hle
    refine ⟨⟨t, st, []⟩, ?_, hdrop.symm, ⟨?_, fun _ => ?_, fun _ => rfl, rfl, fun _ _ => rfl⟩, hst⟩
    · rw [truncateChainState, Nat.succ_sub_one, hnone, hdrop]
      rfl
    · rw [hdrop]
      exact nofun
    · rwa [take_of_length_le hle]
  obtain ⟨t', hend, hrun⟩ := truncateChainState_found hkeep st hfound
  have hnodup := h.nodup
  -- what is dropped does not hold the last cluster that is kept
  have hsplit : cs.drop k = last :: cs.drop (k + 1) := by
    rw [drop_eq_getElem_cons (List.getElem?_eq_some_iff.mp hlast).1,
      (List.getElem?_eq_some_iff.mp hlast).2]
  have hother : ∀ x ∈ cs.drop (k + 1), x ≠ last := by
    have hnd := hnodup.sublist (drop_sublist k cs)
    rw [hsplit, nodup_cons] at hnd
    exact fun x hx hxl => hnd.1 (hxl ▸ hx)
  have hrest' : Chain geo t' after (cs.drop (k + 1)) := hrest.transport fun x hx =>
    readEntry_congr hend.written.length (hend.written.raw_other (hother x hx))
  obtain ⟨s, hfree, hfreed, hf⟩ := freeChainState_chain (hend.right hst) hrest'
  have hkeepRead : ∀ x ∈ cs.take (k + 1),
      readEntry geo.width s.table x = readEntry geo.width t' x := by
    intro x hx
    refine readEntry_congr hf.cleared.length (hf.cleared.raw fun hxs => ?_)
    rw [hfreed] at hxs
    exact (disjoint_take_drop hnodup (Nat.le_refl _)) hx hxs
  have hlastKept : last ∈ cs.take (k + 1) :=
    mem_of_getElem? (by rwa [List.getElem?_take_of_lt (Nat.lt_succ_self k)])
  refine ⟨s, hrun.trans hfree, hfreed, ⟨fun x hx => hf.isFree (hfreed ▸ hx), fun _ => ?_, ?_,
    hf.cleared.length.trans hend.written.length, ?_⟩, hf.right⟩
  · refine h.cut hlast (fun x hx => ?_) ((hkeepRead last hlastKept).trans hend.reads)
    have hxl : x ≠ last := fun hxl => (disjoint_take_drop hnodup (Nat.le_refl k)) hx
      (hsplit ▸ hxl ▸ mem_cons_self)
    rw [hkeepRead x (take_subset_take_left cs (Nat.le_succ k) hx)]
    exact readEntry_congr hend.written.length (hend.written.raw_other hxl)
  · intro hle
    rw [drop_eq_nil_of_le hle] at hrest
    cases hrest
  intro b hb
  rw [Nat.succ_sub_one, hsplit] at hb
  rw [hf.cleared.bits b fun x hx => hb x (mem_cons_of_mem _ (hfreed ▸ hx)), hend.written.bit,
    if_neg (hb last mem_cons_self)]

/-! ### Where the promise is kept -/

variable {w : FatWidth}

/-- Links to clusters below the bad mark read back as links. -/
theorem classify_next {v : ℕ} (hpos : v ≠ 0) (hlt : v < w.badMark) : classify w v = .next v := by
  rw [classify, if_neg hpos, if_neg (Nat.not_le_of_lt hlt)]

theorem classify_end (w : FatWidth) : classify w w.endMark = .ends := by
  cases w <;> rfl

theorem readEntry_eq (h : Holds w t c) : readEntry w t c = some (classify w (rawValue w t c)) := by
  rw [readEntry, readRaw, if_pos h, map_some]

variable {got : List ℕ}

theorem Claimed.chain {rest : List ℕ} (h : Claimed geo t0 t got) (hall : HoldsAll geo t0)
    (hmax : geo.maxCluster ≤ geo.width.badMark) (hrest : got.drop k = c :: rest) :
    Chain geo t c (c :: rest) := by
  induction rest generalizing k c with
  | nil =>
    have hk : got[k]? = some c := by
      rw [← List.head?_drop, hrest]
      rfl
    have hv := h.valid c (mem_of_getElem? hk)
    have hnone : got[k + 1]? = none := by
      rw [← List.head?_drop, ← tail_drop, hrest]
      rfl
    refine .last hv ?_
    obtain ⟨hmod, -⟩ := linkValue_mod hmax h.valid k
    rw [readEntry_eq (h.holds.mpr (hall c hv)), h.links k c hk, hmod]
    rw [linkValue, hnone, getD_none, classify_end]
  | cons d rest ih =>
  have hk : got[k]? = some c := by
    rw [← List.head?_drop, hrest]
    rfl
  have hdrop : got.drop (k + 1) = d :: rest := by
    rw [← tail_drop, hrest]
    rfl
  have hnext : got[k + 1]? = some d := by
    rw [← List.head?_drop, hdrop]
    rfl
  have hv := h.valid c (mem_of_getElem? hk)
  have hd := valid_iff.mp (h.valid d (mem_of_getElem? hnext))
  refine .link hv ?_ (ih hdrop)
  obtain ⟨hmod, -⟩ := linkValue_mod hmax h.valid k
  rw [readEntry_eq (h.holds.mpr (hall c hv)), h.links k c hk, hmod]
  rw [linkValue, hnext, getD_some, classify_next (by omega) (by omega)]

theorem Claimed.ended (h : Claimed geo t0 t got) (hlast : got.getLast? = some last) :
    rawValue geo.width t last = geo.width.endMark := by
  rw [List.getLast?_eq_getElem?] at hlast
  rw [h.links _ last hlast]
  rw [linkValue, List.getElem?_eq_none (by omega), getD_none,
    Nat.mod_eq_of_lt (badMark_lt geo.width).2.2.2]

theorem Claimed.newChain (h : Claimed geo t0 t got) (hall : HoldsAll geo t0)
    (hmax : geo.maxCluster ≤ geo.width.badMark) : NewChain geo t0 t got := by
  refine ⟨h.nodup, fun g hg => ?_, ?_, fun _ hlast => h.ended hlast, h.length, h.bits⟩
  · exact ⟨h.valid g hg, isFree_iff.mpr ⟨hall g (h.valid g hg), h.free g hg⟩⟩
  intro first hfirst
  cases got with
  | nil => cases hfirst
  | cons =>
    cases hfirst
    exact h.chain (k := 0) hall hmax rfl

/-- All clusters are below the bad mark: the promise is kept. -/
theorem tableOps_of_le (hmax : geo.maxCluster ≤ geo.width.badMark) : TableOps geo where
  allocates := by
    intro t st count hall hst hle
    rcases allocClusters_spec hall hst count with ⟨-, t', st', got, hrun, halloc⟩ | ⟨hlt, -⟩
    · refine ⟨t', st', got, hrun, halloc.length, halloc.claimed.newChain hall hmax, ?_⟩
      intro free hfree
      rw [halloc.free, map_eq_some_iff] at hfree
      obtain ⟨old, hold, rfl⟩ := hfree
      have hcount := halloc.claimed.countFree hall hmax
      rw [hst old hold, ← hcount, halloc.length]
      omega
    · omega
  refuses := by
    intro t st count hall hst hlt
    rcases allocClusters_spec hall hst count with ⟨hle, -⟩ | ⟨-, h⟩
    · omega
    · exact h
  frees := fun _ _ _ _ hst h => freeChainState_cut hst h
  truncates := fun _ _ _ _ keep hst h => truncateChainState_cut hst h keep
  freesAny := by
    intro t st first hst
    obtain ⟨s, r, hrun, hf⟩ := freeChainState_spec hst first
    exact ⟨s, r, hrun, hf.nodup, hf.busy, hf.right⟩
  truncatesAny := fun _ _ first keep hst => truncateChainState_spec hst first keep

/-- A table with no entry in use. -/
def blank (geo : Geometry) : Bytes :=
  List.replicate (entryOffset geo.width geo.maxCluster + entryBytes geo.width) 0

theorem entryOffset_mono (h : c ≤ d) : entryOffset w c ≤ entryOffset w d := by
  cases w with
  | fat12 =>
    show c + c / 2 ≤ d + d / 2
    omega
  | fat16 => exact Nat.mul_le_mul_right 2 h
  | fat32 => exact Nat.mul_le_mul_right 4 h

theorem blank_holds (geo : Geometry) : HoldsAll geo (blank geo) := by
  intro c hc
  have hle := entryOffset_mono (w := geo.width) (valid_iff.mp hc).2.le
  rw [Holds, blank, length_replicate]
  omega

theorem blank_bit (geo : Geometry) (b : ℕ) : bit (blank geo) b = false := by
  rw [bit, blank, getD_eq_getElem?_getD, List.getElem?_replicate]
  split
  · exact BitVec.getLsbD_zero
  · exact BitVec.getLsbD_zero

theorem blank_raw (geo : Geometry) (c : ℕ) : rawValue geo.width (blank geo) c = 0 := by
  refine Nat.eq_of_testBit_eq fun k => ?_
  rw [rawValue_testBit, blank_bit, Bool.and_false, Nat.zero_testBit]

theorem blank_isFree (hc : geo.validEntry c = true) : isFree geo.width (blank geo) c = true :=
  isFree_iff.mpr ⟨blank_holds geo c hc, blank_raw geo c⟩

/-- A state that knows no count, and starts the scan right below the bad mark. -/
def belowBad (geo : Geometry) : FreeState := ⟨none, false, geo.width.badMark - 2, false⟩

/-- **The cluster at the bad mark**: a link to it reads as an end. -/
theorem not_tableOps (hmax : geo.width.badMark < geo.maxCluster) : ¬ TableOps geo := by
  intro h
  obtain ⟨hbad, hcarried, -, -⟩ := badMark_lt geo.width
  have hright : (belowBad geo).Right geo (blank geo) := nofun
  have hmaxlt := geo.max_lt
  have hspan : geo.span = geo.maxCluster - 2 := rfl
  have hstart : geo.startOf (belowBad geo).prevFree = geo.width.badMark - 1 := by
    unfold startOf belowBad FAT_START_ENT
    dsimp only
    rw [if_neg (by omega)]
    omega
  -- the scan takes the clusters on both sides of the mark
  obtain ⟨n, hn⟩ : ∃ n, geo.span = n + 2 := ⟨geo.span - 2, by omega⟩
  have hafter : geo.after (geo.width.badMark - 1) = geo.width.badMark := by
    rw [Geometry.after, if_neg (by omega)]
    omega
  have hfirst : geo.validEntry (geo.width.badMark - 1) = true :=
    valid_iff.mpr (by omega)
  have hsecond : geo.validEntry geo.width.badMark = true := valid_iff.mpr (by omega)
  have hcount : 2 ≤ countFree geo (blank geo) := by
    have hall : geo.clusters.countP (isFree geo.width (blank geo)) = geo.clusters.length :=
      countP_eq_length.mpr fun c hc => blank_isFree (mem_clusters.mp hc)
    rw [countFree, hall]
    rw [clusters, length_range']
    omega
  rcases allocClusters_spec (blank_holds geo) hright 2 with
    ⟨-, t', st', got, hrun, halloc⟩ | ⟨hlt, -⟩
  · have hgot : got = [geo.width.badMark - 1, geo.width.badMark] := by
      rw [halloc.order, hstart, hn, scanOrder, scanOrder, hafter,
        filter_cons_of_pos (blank_isFree hfirst), filter_cons_of_pos (blank_isFree hsecond)]
      rfl
    obtain ⟨t'', st'', got', hrun', -, hnew, -⟩ := h.allocates _ _ 2 (blank_holds geo) hright hcount
    cases hrun.symm.trans hrun'
    have hchain := hnew.chain _ (by rw [hgot]; rfl)
    rw [hgot] at hchain
    have hlink := halloc.claimed.links 0 (geo.width.badMark - 1) (by rw [hgot]; rfl)
    have hvalue : linkValue geo.width got 0 = geo.width.badMark := by
      rw [hgot]
      rfl
    rw [hvalue, Nat.mod_eq_of_lt hcarried] at hlink
    cases hchain with
    | link _ hread _ =>
    rw [readEntry_eq (halloc.claimed.holds.mpr (blank_holds geo _ hfirst)), hlink] at hread
    unfold classify at hread
    rw [if_neg (by omega), if_pos (Nat.le_refl _)] at hread
    cases hread
  · omega

/-- **The operations of the table keep their promise exactly on the volumes whose clusters are all
below the bad mark.** -/
theorem tableOps_iff (geo : Geometry) : TableOps geo ↔ geo.maxCluster ≤ geo.width.badMark :=
  ⟨fun h => Nat.le_of_not_lt fun hlt => not_tableOps hlt h, tableOps_of_le⟩

/-- A boot sector that claims as many clusters as the widest entries allow: 512-byte clusters, one
table. -/
def fullBpb : Bpb := ⟨512, 1, 32, 1, 0, 0, 2097152, 0, 270532630, 2⟩

/-- **It is accepted, and the promise is broken**: it has a cluster that no link can name. -/
theorem full_not_tableOps : ∃ geo, resolve fullBpb = .ok geo ∧ geo.width = .fat32 ∧
    geo.totalClusters = 0xFFFFFF6 ∧ ¬ TableOps geo :=
  ⟨_, rfl, rfl, rfl, not_tableOps (by decide)⟩

end Oxide.Fat
