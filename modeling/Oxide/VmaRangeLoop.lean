/-
Totality of the VMA tree operations.

The range operations run one loop each over keys collected beforehand. This file proves what
such a loop does, once, for every operation: `Pending` is the state of the work still to do,
`Stepped` what one turn may do.

* `loop_spec`: a loop that is never surprised, or that skips missing keys, ends normally; its
  views are the old ones, overlaid with the pieces of the VMAs it has taken;
* `loop_panics`: one that panics at a missing key does so once a turn consumes the next key;
* `loop_rel`: what every turn establishes and composes holds across the loop;
* `TreeOp.endsWellFormed_iff`: **for every operation on every well-formed tree, a normal end with a
  well-formed tree is the same as `TreeOp.KeepsCollectedKeys`**.
-/
import Oxide.VmaRanges

namespace Oxide

open OrdMap UserVirtAddr

variable {rest ws : List Vma} {e endKey start : UserVirtAddr}
  {orphan : UserVirtAddr → Except Panic UserVirtAddr} {mid : Vma → Option Vma} {rewrite : Vma → Vma}
  {t t' : VmaTree} {missing : VmaTree → Except Panic VmaTree}
  {put : VmaTree → UserVirtAddr → Vma → VmaTree}

namespace VmaTree

variable {t : VmaTree} {v : Vma} {start : UserVirtAddr} {stop : ℕ}

/-- A rewrite that leaves the bounds of a VMA alone. -/
def KeepsRange (rewrite : Vma → Vma) : Prop :=
  ∀ m, (rewrite m).start = m.start ∧ (rewrite m).end = m.end

theorem Spliced.of_map_eq {mid : Option Vma} {t1 t2 : VmaTree}
    (h : Spliced t v mid start stop t1) (he : t2.map = t1.map) :
    Spliced t v mid start stop t2 where
  wellFormed := h.wellFormed.of_map_eq he
  view_eq f va := by rw [view_congr he, h.view_eq]
  get?_mid := by rw [he]; exact h.get?_mid
  get?_above hk := by rw [he]; exact h.get?_above hk

/-! ### Fragments -/

/-- The pieces that take the place of `v`, in address order. -/
def pieces (mid : Option Vma) (start : UserVirtAddr) («end» : ℕ) (v : Vma) : List Vma :=
  (leftPiece start v).toList ++ (mid.toList ++ (rightPiece «end» v).toList)

section

variable (put : VmaTree → UserVirtAddr → Vma → VmaTree)

/-- Put VMAs one after the other. -/
def putAll (t : VmaTree) (ws : List Vma) : VmaTree :=
  ws.foldl (fun t w => put t w.start w) t

theorem putAll_append (t : VmaTree) (ws ws' : List Vma) :
    putAll put t (ws ++ ws') = putAll put (putAll put t ws) ws' :=
  List.foldl_append

theorem keepLeft_eq (msg : String) (u : VmaTree) (start : UserVirtAddr) (v : Vma) :
    u.keepLeft put msg v (max start.asU64 v.start.asU64) =
      .ok (putAll put u (leftPiece start v).toList) := by
  by_cases hs : v.start.asU64 < start.asU64
  · have hmax : max start.asU64 v.start.asU64 = start.asU64 := by omega
    rw [keepLeft, hmax, if_pos hs, new_eq_some start.isUser, leftPiece, if_pos hs]
    rfl
  · rw [keepLeft, if_neg (by omega), leftPiece, if_neg hs]
    rfl

theorem keepRight_eq (msg : String) (u : VmaTree) (stop : ℕ) (v : Vma) :
    u.keepRight put msg v (min stop v.end.asU64) =
      .ok (putAll put u (rightPiece stop v).toList) := by
  by_cases hs : stop < v.end.asU64
  · have he : UserVirtAddr.new (min stop v.end.asU64) = some (clipEnd stop v) :=
      new_eq_some (clipEnd stop v).isUser
    rw [keepRight, if_pos (by omega), he, rightPiece, if_pos hs]
    rfl
  · rw [keepRight, if_neg (by omega), rightPiece, if_neg hs]
    rfl

theorem new_clipStart (start : UserVirtAddr) (v : Vma) :
    UserVirtAddr.new (max start.asU64 v.start.asU64) = some (clipStart start v) := by
  rw [← clipStart_asU64, new_eq_some (clipStart start v).isUser]

theorem new_clipEnd (stop : ℕ) (v : Vma) :
    UserVirtAddr.new (min stop v.end.asU64) = some (clipEnd stop v) :=
  new_eq_some (clipEnd stop v).isUser

/-- **A rewriting split puts the pieces of the VMA in address order.** -/
theorem splitRewrite_eq (msg : String) (hrw : KeepsRange rewrite) (u : VmaTree)
    (start : UserVirtAddr) (stop : ℕ) (v : Vma) :
    splitRewrite put msg rewrite start stop u v = .ok (clipStart start v,
        putAll put u (pieces (some (rewrite (midPiece start stop v))) start stop v)) := by
  have hstart : (rewrite (midPiece start stop v)).start = clipStart start v := (hrw _).1
  simp only [splitRewrite, keepLeft_eq, new_clipStart, new_clipEnd, expect_some, bind, Except.bind,
    pure, Except.pure]
  rw [← midPiece, keepRight_eq, pieces]
  simp [putAll, hstart]

end

theorem putAll_map (hput : ∀ t k v, (put t k v).map = t.map.insert k v) {u u' : VmaTree}
    (hu : u.map = u'.map) (o : Option Vma) : (putAll put u o.toList).map = (u'.storeOpt o).map := by
  cases o with
  | none => exact hu
  | some w =>
    show (put u w.start w).map = u'.map.insert w.start w
    rw [hput, hu]

theorem putAll_pieces_map (hput : ∀ t k v, (put t k v).map = t.map.insert k v) (t : VmaTree)
    (v : Vma) (mid : Option Vma) (start : UserVirtAddr) (stop : ℕ) :
    (putAll put (t.without v.start) (pieces mid start stop v)).map =
      (t.splice v mid start stop).map := by
  rw [pieces, putAll_append, putAll_append]
  exact putAll_map hput (putAll_map hput (putAll_map hput rfl _) _) _

theorem KeepsRange.fills (hrw : KeepsRange rewrite) (start : UserVirtAddr) (stop : ℕ) (v : Vma) :
    Fills start stop v (some (rewrite (midPiece start stop v))) := by
  intro m h
  cases h
  exact ⟨(hrw _).1, (hrw _).2⟩

/-- A rewriting split cannot panic: it is the splice with the rewritten middle. -/
theorem splitRewrite_spec (hput : ∀ t k v, (put t k v).map = t.map.insert k v) (msg : String)
    (hrw : KeepsRange rewrite) (hw : t.WellFormed) (hv : t.Has v) (hm : Meets start stop v) :
    ∃ t', splitRewrite put msg rewrite start stop (t.without v.start) v =
        .ok (clipStart start v, t') ∧
      Spliced t v (some (rewrite (midPiece start stop v))) start stop t' :=
  ⟨_, splitRewrite_eq put msg hrw _ start stop v,
    (splice_spec hw hv hm (hrw.fills start stop v)).of_map_eq (putAll_pieces_map hput ..)⟩

/-! ### One turn -/

/-- What one turn of a loop does to the VMA `v` it is about: a splice, and for the operations
that coalesce the removal of the next VMA if `ab v` holds of it. -/
structure Stepped (ab : Vma → Vma → Bool) (mid : Vma → Option Vma) (start : UserVirtAddr)
    («end» : ℕ) (t : VmaTree) (v : Vma) (t' : VmaTree) : Prop where
  wellFormed : t'.WellFormed
  view_eq : ∀ {α : Type} (f : MergeView α) (va : UserVirtAddr),
    view f t' va = if v.contains va then pieceView f (mid v) start «end» v va else view f t va
  consumed : ∀ {w}, t.map.get? w.start = some w → v.end.asU64 ≤ w.start.asU64 →
    ab v w = true → t'.map.get? w.start = none
  kept : ∀ {w}, t.map.get? w.start = some w → v.end.asU64 ≤ w.start.asU64 →
    ab v w = false → t'.map.get? w.start = some w

theorem Spliced.stepped (h : Spliced t v (mid v) start stop t') :
    Stepped (fun _ _ => false) mid start stop t v t' where
  wellFormed := h.wellFormed
  view_eq := h.view_eq
  consumed _ _ hab := absurd hab (by simp)
  kept hg hle _ := by rwa [h.get?_above hle]

/-- Whether the rewritten fragment of `v` may absorb `w`. -/
def absorbs (rewrite : Vma → Vma) (start : UserVirtAddr) («end» : ℕ) (v w : Vma) : Bool :=
  (rewrite (midPiece start «end» v)).mergeableWithNext w

variable {w : Vma}

theorem absorbs_start_le (hrw : KeepsRange rewrite)
    (h : absorbs rewrite start stop v w = true) : w.start.asU64 ≤ v.end.asU64 := by
  have habut := (Vma.mergeableWithNext_iff.mp h).abut
  rw [(hrw _).2] at habut
  have h1 : min stop v.end.asU64 = w.start.asU64 := eq_iff.mp habut
  omega

/-- One turn of a coalescing loop at a key that is still there. -/
theorem rewriteKey_step {msg : String} (hrw : KeepsRange rewrite) (hw : t.WellFormed)
    (hv : t.Has v) (hm : Meets start e.asU64 v) :
    ∃ t', rewriteKey missing msg orphan rewrite start e t v.start = .ok t' ∧
      Stepped (absorbs rewrite start e.asU64) (fun v => some (rewrite (midPiece start e.asU64 v)))
        start e.asU64 t v t' := by
  obtain ⟨t1, ht1, hsp⟩ := splitRewrite_spec mapPut_map msg hrw hw hv hm
  set mid := rewrite (midPiece start e.asU64 v) with hmid
  have hsp' : Spliced t v (some mid) start e.asU64 (t1.vmaClosed v) := hsp.of_map_eq rfl
  have hstart : mid.start = clipStart start v := (hrw _).1
  have hend : mid.end = clipEnd e.asU64 v := (hrw _).2
  have hg := hsp'.get?_mid mid rfl
  have hne := hsp'.wellFormed.nonempty hg
  have hle : mid.end.asU64 ≤ v.end.asU64 := by
    rw [hend]
    exact min_le_right _ _
  obtain ⟨t', ht', hr⟩ := remerge_spec hsp'.wellFormed hg (orphan mid.start)
  refine ⟨t', ?_, hr.wellFormed, fun f va => ?_, fun {w} hgw hvw hab => ?_,
    fun {w} hgw hvw hab => ?_⟩
  · have htake : t.mapTake v.start = some (v, t.without v.start) := by
      rw [mapTake, hv]
      rfl
    simp only [rewriteKey, htake, ht1]
    rwa [← hstart]
  · rw [hr.view_eq, hsp'.view_eq]
  · -- the absorbed VMA is the next key after the middle
    have hmm := Vma.mergeableWithNext_iff.mp hab
    refine hr.consumed (next?_eq_some_iff.mpr ⟨?_, ?_, fun k'' v'' h h' => ?_⟩) hmm
    · rwa [hsp'.get?_above hvw]
    · rw [lt_iff]
      omega
    have := hsp'.wellFormed.end_le hg h h'
    rwa [hmm.abut, hsp'.wellFormed.keyed h] at this
  refine hr.kept ?_ ?_ ?_
  · rw [lt_iff]
    omega
  · rwa [hsp'.get?_above hvw]
  rintro ⟨_, hmm⟩
  rw [absorbs, Vma.mergeableWithNext_iff.mpr hmm] at hab
  cases hab

/-! ### The loop -/

/-- The VMAs a loop still has to visit. -/
structure Pending (t : VmaTree) (start : UserVirtAddr) («end» : ℕ) (vs : List Vma) : Prop where
  wellFormed : t.WellFormed
  present : ∀ v ∈ vs, t.map.get? v.start = some v
  meets : ∀ v ∈ vs, Meets start «end» v
  ordered : vs.Pairwise fun v w => v.end.asU64 ≤ w.start.asU64

/-- The VMAs a loop that skips missing keys takes out: a VMA absorbed by the one before is
passed over. -/
def taken (ab : Vma → Vma → Bool) : List Vma → List Vma
  | [] => []
  | [v] => [v]
  | v :: w :: rest => if ab v w then v :: taken ab rest else v :: taken ab (w :: rest)

theorem taken_subset (ab : Vma → Vma → Bool) (vs : List Vma) : taken ab vs ⊆ vs := by
  induction vs using taken.induct ab with
  | case1 => simp [taken]
  | case2 => simp [taken]
  | case3 v w rest hab ih =>
    rw [taken, if_pos hab]
    exact List.cons_subset_cons v (List.Subset.trans ih (List.subset_cons_self w rest))
  | case4 v w rest hab ih =>
    rw [taken, if_neg hab]
    exact List.cons_subset_cons v ih

variable {vs : List Vma}

theorem taken_of_isChain {ab : Vma → Vma → Bool}
    (h : vs.IsChain fun v w => ab v w = false) : taken ab vs = vs := by
  induction vs using taken.induct ab with
  | case1 => rfl
  | case2 => rfl
  | case3 v w rest hab =>
    rw [List.isChain_cons_cons, hab] at h
    exact absurd h.1 (by simp)
  | case4 v w rest hab ih =>
    rw [taken, if_neg hab, ih (List.isChain_cons_cons.mp h).2]

/-- A view overlaid with the pieces of the VMAs of a list. -/
def overlay {α : Type} (piece : Vma → UserVirtAddr → Option α) (base : UserVirtAddr → Option α)
    (vs : List Vma) (va : UserVirtAddr) : Option α :=
  match vs.find? fun v => v.contains va with
  | some v => piece v va
  | none => base va

theorem overlay_cons {α : Type} {piece : Vma → UserVirtAddr → Option α}
    {base : UserVirtAddr → Option α} (hd : ∀ w ∈ ws, v.end.asU64 ≤ w.start.asU64)
    (va : UserVirtAddr) :
    overlay piece (fun va => if v.contains va then piece v va else base va) ws va =
      overlay piece base (v :: ws) va := by
  by_cases hc : v.contains va = true
  · -- no later VMA covers an address of `v`
    have hnone : (ws.find? fun w => w.contains va) = none := by
      rw [List.find?_eq_none]
      intro w h hcw
      have := hd w h
      have := Vma.contains_iff.mp hc
      have := Vma.contains_iff.mp hcw
      omega
    simp [overlay, hnone, hc]
  cases hf : ws.find? fun w => w.contains va with
  | none => simp [overlay, hc]
  | some => simp [overlay, hc]

/-- What a loop leaves behind: the pieces of the VMAs `vs` in place of these. -/
structure Overlaid (mid : Vma → Option Vma) (start : UserVirtAddr) («end» : ℕ) (vs : List Vma)
    (t t' : VmaTree) : Prop where
  wellFormed : t'.WellFormed
  view_eq : ∀ {α : Type} (f : MergeView α) (va : UserVirtAddr), view f t' va =
    overlay (fun v => pieceView f (mid v) start «end» v) (view f t) vs va

/-- **A call that runs its loop when it is admitted**, and otherwise leaves the tree alone. -/
structure Loops (admitted : Prop) (mid : Vma → Option Vma) (start : UserVirtAddr) («end» : ℕ)
    (vs : List Vma) (t t' : VmaTree) : Prop where
  same : ¬ admitted → t' = t
  overlaid : admitted → start.asU64 < «end» ∧ Overlaid mid start «end» vs t t'

theorem Loops.wellFormed {admitted : Prop} {mid : Vma → Option Vma} {t' : VmaTree}
    (h : Loops admitted mid start stop vs t t') (hw : t.WellFormed) : t'.WellFormed := by
  by_cases ha : admitted
  · exact (h.overlaid ha).2.wellFormed
  · rwa [h.same ha]

/-- When a call ends normally, and that it then leaves a well-formed tree. -/
structure RunsIff (x : Except Panic VmaTree) (P : Prop) : Prop where
  keeps : ∀ {t'}, x = .ok t' → P
  runs : P → ∃ t', x = .ok t' ∧ t'.WellFormed

theorem RunsIff.of_total {x : Except Panic VmaTree} (h : ∃ t', x = .ok t' ∧ t'.WellFormed) :
    RunsIff x True :=
  ⟨fun _ => trivial, fun _ => h⟩

section Loop

variable {σ : Type} {tree : σ → VmaTree} {body : σ → UserVirtAddr → Except Panic σ}
  {ab : Vma → Vma → Bool} {mid : Vma → Option Vma}

/-- Each turn of the loop at a key that is still there is a step. -/
def Turns (tree : σ → VmaTree) (body : σ → UserVirtAddr → Except Panic σ)
    (ab : Vma → Vma → Bool) (mid : Vma → Option Vma) (start : UserVirtAddr) («end» : ℕ) : Prop :=
  ∀ s v, (tree s).WellFormed → (tree s).map.get? v.start = some v → Meets start «end» v →
    ∃ s', body s v.start = .ok s' ∧ Stepped ab mid start «end» (tree s) v (tree s')

/-- The work left after a turn is any later part of the list that the turn did not consume. -/
theorem Pending.after (hp : Pending t start stop (v :: ws))
    (hs : Stepped ab mid start stop t v t') (hsub : rest.Sublist ws)
    (hab : ∀ w ∈ rest, ab v w = false) :
    Pending t' start stop rest where
  wellFormed := hs.wellFormed
  present w h := hs.kept (hp.present w (List.mem_cons_of_mem v (hsub.subset h)))
    ((List.pairwise_cons.mp hp.ordered).1 w (hsub.subset h)) (hab w h)
  meets w h := hp.meets w (List.mem_cons_of_mem v (hsub.subset h))
  ordered := (List.pairwise_cons.mp hp.ordered).2.sublist hsub

/-- Only the VMA visited next can be absorbed: later ones do not abut. -/
theorem Pending.not_absorbs (hp : Pending t start stop (v :: w :: rest))
    (habut : ∀ v w, ab v w = true → w.start.asU64 ≤ v.end.asU64) : ∀ x ∈ rest, ab v x = false := by
  intro x hx
  by_contra h
  have h1 := habut v x (by simpa using h)
  have h2 := (List.pairwise_cons.mp hp.ordered).1 w (by simp)
  have h3 := (List.pairwise_cons.mp (List.pairwise_cons.mp hp.ordered).2).1 x hx
  have h4 := (hp.meets w (by simp)).nonempty
  omega

theorem Pending.not_absorbs_cons (hp : Pending t start stop (v :: w :: rest))
    (habut : ∀ v w, ab v w = true → w.start.asU64 ≤ v.end.asU64) (hab : ¬ ab v w = true) :
    ∀ x ∈ w :: rest, ab v x = false := by
  intro x hx
  rcases List.mem_cons.mp hx with rfl | hx
  · simpa using hab
  · exact hp.not_absorbs habut x hx

variable (hturn : Turns tree body ab mid start stop)

include hturn

theorem Pending.turn {s : σ} (hp : Pending (tree s) start stop (v :: ws)) :
    ∃ s', body s v.start = .ok s' ∧ Stepped ab mid start stop (tree s) v (tree s') :=
  hturn s v hp.wellFormed (hp.present v (by simp)) (hp.meets v (by simp))

variable (habut : ∀ v w, ab v w = true → w.start.asU64 ≤ v.end.asU64)

include habut

/-- **A loop that skips missing keys, or whose turns consume none, ends normally**; its views
are the old ones overlaid with the pieces of the VMAs taken. -/
theorem loop_spec (vs : List Vma) (s : σ)
    (hp : Pending (tree s) start stop vs)
    (hskip : (∀ s k, (tree s).map.get? k = none → body s k = .ok s) ∨
      vs.IsChain fun v w => ab v w = false) :
    ∃ s', (vs.map Vma.start).foldlM body s = .ok s' ∧
      Overlaid mid start stop (taken ab vs) (tree s) (tree s') := by
  -- by the recursion of `taken`: an absorbed VMA is visited together with the one before
  induction vs using taken.induct ab generalizing s with
  | case1 => exact ⟨s, rfl, hp.wellFormed, fun f va => rfl⟩
  | case2 =>
    obtain ⟨s', hs', hst⟩ := hp.turn hturn
    refine ⟨s', ?_, hst.wellFormed, fun f va => ?_⟩
    · simp [hs', bind, Except.bind, pure, Except.pure]
    · rw [hst.view_eq, taken, ← overlay_cons (by simp)]
      rfl
  | case3 v w rest hab ih =>
    obtain ⟨s1, hs1, hst⟩ := hp.turn hturn
    have hvw := (List.pairwise_cons.mp hp.ordered).1 w (by simp)
    have hgone := hst.consumed (hp.present w (by simp)) hvw hab
    rcases hskip with hskip | hchain
    · have hp1 := hp.after hst (List.sublist_cons_self w rest) (hp.not_absorbs habut)
      obtain ⟨s', hs', hw', hview⟩ := ih s1 hp1 (.inl hskip)
      refine ⟨s', ?_, hw', fun f va => ?_⟩
      · simp only [List.map_cons, List.foldlM_cons, hs1, bind, Except.bind]
        rwa [hskip s1 w.start hgone]
      rw [hview f va, taken, if_pos hab, ← overlay_cons]
      · exact congrArg (fun b => overlay _ b _ va) (funext fun va => hst.view_eq f va)
      intro x hx
      exact (List.pairwise_cons.mp hp.ordered).1 x
        (List.mem_cons_of_mem w (taken_subset ab rest hx))
    · rw [List.isChain_cons_cons, hab] at hchain
      exact absurd hchain.1 (by simp)
  | case4 v w rest hab ih =>
  obtain ⟨s1, hs1, hst⟩ := hp.turn hturn
  have hkeep := hp.not_absorbs_cons habut hab
  have hp1 := hp.after hst (List.Sublist.refl _) hkeep
  obtain ⟨s', hs', hw', hview⟩ := ih s1 hp1 (hskip.imp id fun h => (List.isChain_cons_cons.mp h).2)
  refine ⟨s', ?_, hw', fun f va => ?_⟩
  · simp only [List.map_cons, List.foldlM_cons, hs1]
    exact hs'
  rw [hview f va, taken, if_neg hab, ← overlay_cons]
  · exact congrArg (fun b => overlay _ b _ va) (funext fun va => hst.view_eq f va)
  · intro x hx
    exact (List.pairwise_cons.mp hp.ordered).1 x (taken_subset ab (w :: rest) hx)

/-- **A loop that panics at a missing key does so when one turn consumes the next key.** -/
theorem loop_panics (vs : List Vma) (s : σ) (hp : Pending (tree s) start stop vs)
    (hmissing : ∀ s k, (tree s).map.get? k = none → ∃ p, body s k = .error p)
    (hchain : ¬ vs.IsChain fun v w => ab v w = false) :
    ∃ p, (vs.map Vma.start).foldlM body s = .error p := by
  induction vs generalizing s with
  | nil => exact absurd List.IsChain.nil hchain
  | cons v vs ih =>
  rcases vs with _ | ⟨w, rest⟩
  · exact absurd (List.IsChain.singleton v) hchain
  obtain ⟨s1, hs1, hst⟩ := hp.turn hturn
  simp only [List.map_cons, List.foldlM_cons, hs1, bind, Except.bind]
  by_cases hab : ab v w = true
  · have hvw := (List.pairwise_cons.mp hp.ordered).1 w (by simp)
    obtain ⟨p, hpanic⟩ := hmissing s1 w.start (hst.consumed (hp.present w (by simp)) hvw hab)
    exact ⟨p, by rw [hpanic]⟩
  have hkeep := hp.not_absorbs_cons habut hab
  refine ih s1 (hp.after hst (List.Sublist.refl _) hkeep) fun hc => hchain ?_
  exact List.isChain_cons_cons.mpr ⟨by simpa using hab, hc⟩

/-- **A relation that composes, and that every turn at a present key establishes, holds across a
loop that ends normally.** -/
theorem loop_rel {R : σ → σ → Prop} (hrefl : ∀ s, R s s)
    (htrans : ∀ {a b c}, R a b → R b c → R a c)
    (hmissing : ∀ s v w s', ab v w = true → (tree s).map.get? w.start = none →
      body s w.start = .ok s' → s' = s)
    (vs : List Vma) (s s' : σ) (hp : Pending (tree s) start stop vs)
    (hR : ∀ s v s', v ∈ vs → (tree s).WellFormed → (tree s).Has v →
      Meets start stop v → body s v.start = .ok s' → R s s')
    (h : (vs.map Vma.start).foldlM body s = .ok s') : R s s' := by
  induction vs using taken.induct ab generalizing s with
  | case1 =>
    obtain rfl : s = s' := Except.ok.inj h
    exact hrefl s
  | case2 v =>
    have hv := hp.present v (by simp)
    have hm := hp.meets v (by simp)
    obtain ⟨s1, hs1, -⟩ := hp.turn hturn
    simp only [List.map_cons, List.foldlM_cons, hs1] at h
    obtain rfl : s1 = s' := Except.ok.inj h
    exact hR s v s1 (by simp) hp.wellFormed hv hm hs1
  | case3 v w rest hab ih =>
    have hv := hp.present v (by simp)
    have hm := hp.meets v (by simp)
    obtain ⟨s1, hs1, hst⟩ := hp.turn hturn
    have hvw := (List.pairwise_cons.mp hp.ordered).1 w (by simp)
    have hgone := hst.consumed (hp.present w (by simp)) hvw hab
    rw [List.map_cons, List.foldlM_cons, hs1] at h
    -- the turn at the absorbed key can only pass over it
    obtain ⟨s2, hb, h⟩ := Except.bind_eq_ok (x := body s1 w.start).mp h
    rw [hmissing s1 v w s2 hab hgone hb] at h
    have hp1 := hp.after hst (List.sublist_cons_self w rest) (hp.not_absorbs habut)
    refine htrans (hR s v s1 (by simp) hp.wellFormed hv hm hs1) (ih s1 hp1 ?_ h)
    exact fun s x s' hx => hR s x s' (List.mem_cons_of_mem v (List.mem_cons_of_mem w hx))
  | case4 v w rest hab ih =>
  have hv := hp.present v (by simp)
  have hm := hp.meets v (by simp)
  obtain ⟨s1, hs1, hst⟩ := hp.turn hturn
  rw [List.map_cons, List.foldlM_cons, hs1] at h
  have hp1 := hp.after hst (List.Sublist.refl _) (hp.not_absorbs_cons habut hab)
  refine htrans (hR s v s1 (by simp) hp.wellFormed hv hm hs1) (ih s1 hp1 ?_ h)
  exact fun s x s' hx => hR s x s' (List.mem_cons_of_mem v hx)

end Loop

/-! ### The operations -/

/-- The VMAs collected for a range, in order. -/
def collected (t : VmaTree) (start endKey : UserVirtAddr) : List Vma :=
  (t.collect start endKey).map Prod.snd

theorem mem_collected_iff (hw : t.WellFormed) :
    v ∈ t.collected start endKey ↔ t.Has v ∧ v.start < endKey ∧ start.asU64 < v.end.asU64 := by
  rw [collected, List.mem_map]
  constructor
  · intro ⟨⟨k, w⟩, hmem, hvw⟩
    obtain rfl : w = v := hvw
    obtain ⟨hb, hs⟩ := List.mem_filter.mp hmem
    obtain ⟨hg, hlt⟩ := mem_below_iff.mp hb
    obtain rfl := hw.keyed hg
    exact ⟨hg, hlt, by simpa using hs⟩
  intro ⟨hg, hlt, hs⟩
  exact ⟨(v.start, v), List.mem_filter.mpr ⟨mem_below_iff.mpr ⟨hg, hlt⟩, by simpa using hs⟩, rfl⟩

theorem collect_keys (hw : t.WellFormed) (start endKey : UserVirtAddr) :
    (t.collect start endKey).map Prod.fst = (t.collected start endKey).map Vma.start := by
  rw [collected, List.map_map]
  refine List.map_congr_left fun e h => ?_
  exact (hw.keyed (mem_below_iff.mp (List.mem_filter.mp h).1).1).symm

/-- The collected VMAs are the pending work of a loop over a non-empty range. -/
theorem collected_pending (hw : t.WellFormed) (hrange : start.asU64 < stop)
    (hkey : endKey.asU64 ≤ stop) :
    Pending t start stop (t.collected start endKey) where
  wellFormed := hw
  present v h := ((mem_collected_iff hw).mp h).1
  meets v h := by
    obtain ⟨hg, hlt, hs⟩ := (mem_collected_iff hw).mp h
    exact ⟨hw.nonempty hg, hrange, lt_of_lt_of_le (lt_iff.mp hlt) hkey, hs⟩
  ordered := by
    rw [collected, List.pairwise_map]
    refine ((t.map.below_sorted endKey).filter _).imp_of_mem fun {a b} ha hb hlt => ?_
    exact hw.end_le (mem_below_iff.mp (List.mem_filter.mp ha).1).1
      (mem_below_iff.mp (List.mem_filter.mp hb).1).1 hlt

/-- No rewritten fragment may absorb the VMA collected next. -/
def NeverAbsorbs (t : VmaTree) (rewrite : Vma → Vma) (start «end» : UserVirtAddr) : Prop :=
  (t.collected start «end»).IsChain fun v w => absorbs rewrite start «end».asU64 v w = false

section Coalescing

variable (msg : String) (orphan : UserVirtAddr → Except Panic UserVirtAddr) {rewrite : Vma → Vma}
  {e : UserVirtAddr}

theorem rewriteKey_turns (missing : VmaTree → Except Panic VmaTree) (hrw : KeepsRange rewrite) :
    Turns id (rewriteKey missing msg orphan rewrite start e) (absorbs rewrite start e.asU64)
      (fun v => some (rewrite (midPiece start e.asU64 v))) start e.asU64 :=
  fun _ _ hw hv hm => rewriteKey_step hrw hw hv hm

theorem rewriteKey_missing {k : UserVirtAddr} (h : t.map.get? k = none) :
    rewriteKey missing msg orphan rewrite start e t k = missing t := by
  rw [rewriteKey, mapTake, h]
  rfl

theorem rewriteLoop_skip (hrw : KeepsRange rewrite) (hw : t.WellFormed)
    (hrange : start.asU64 < e.asU64) :
    ∃ t', ((t.collect start e).map Prod.fst).foldlM
        (rewriteKey .ok msg orphan rewrite start e) t = .ok t' ∧
      Overlaid (fun v => some (rewrite (midPiece start e.asU64 v))) start e.asU64
        (taken (absorbs rewrite start e.asU64) (t.collected start e)) t t' := by
  rw [collect_keys hw]
  exact loop_spec (rewriteKey_turns msg orphan .ok hrw) (fun _ _ => absorbs_start_le hrw) _ t
    (collected_pending hw hrange le_rfl) (.inl fun _ _ h => rewriteKey_missing msg orphan h)

/-- **A coalescing loop that panics at missing keys ends normally exactly when no rewritten
fragment may absorb the VMA collected next.** -/
theorem rewriteLoop_runsIff (hrw : KeepsRange rewrite) (hw : t.WellFormed)
    (hrange : start.asU64 < e.asU64) (p : Panic) :
    RunsIff (((t.collect start e).map Prod.fst).foldlM
        (rewriteKey (fun _ => .error p) msg orphan rewrite start e) t)
      (t.NeverAbsorbs rewrite start e) := by
  have hp := collected_pending hw hrange (le_refl e.asU64)
  rw [collect_keys hw]
  refine ⟨fun {t'} ht' => ?_, fun hc => ?_⟩
  · by_contra hc
    obtain ⟨q, hq⟩ := loop_panics (rewriteKey_turns msg orphan (fun _ => .error p) hrw)
      (fun _ _ => absorbs_start_le hrw) _ t hp
      (fun _ _ h => ⟨p, rewriteKey_missing msg orphan h⟩) hc
    cases hq.symm.trans ht'
  obtain ⟨t', ht', ho⟩ := loop_spec (rewriteKey_turns msg orphan (fun _ => .error p) hrw)
    (fun _ _ => absorbs_start_le hrw) _ t hp (.inr hc)
  exact ⟨t', ht', ho.wellFormed⟩

/-- A coalescing loop over a range of a well-formed tree has ended normally. -/
structure Coalesces (rewrite : Vma → Vma) (start e : UserVirtAddr) (t t' : VmaTree) : Prop where
  keepsRange : KeepsRange rewrite
  wellFormed : t.WellFormed
  range : start.asU64 < e.asU64
  run : ∃ missing msg orphan, (∀ {t t'}, missing t = .ok t' → t' = t) ∧
    ((t.collect start e).map Prod.fst).foldlM
      (rewriteKey missing msg orphan rewrite start e) t = .ok t'

theorem Coalesces.rel {R : VmaTree → VmaTree → Prop} (h : Coalesces rewrite start e t t')
    (hrefl : ∀ t, R t t) (htrans : ∀ {a b c}, R a b → R b c → R a c)
    (hR : ∀ {missing msg orphan t v t'}, t.WellFormed → t.Has v →
      Meets start e.asU64 v → rewriteKey missing msg orphan rewrite start e t v.start = .ok t' →
      R t t') : R t t' := by
  obtain ⟨hrw, hw, hrange, missing, msg, orphan, hmissing, h⟩ := h
  rw [collect_keys hw] at h
  refine loop_rel (rewriteKey_turns msg orphan missing hrw)
    (fun _ _ => absorbs_start_le hrw) hrefl htrans (fun t v w t' _ hg hb => ?_) _ t t'
    (collected_pending hw hrange le_rfl) (fun t v t' _ hw hv hm hb => hR hw hv hm hb) h
  have hgone : rewriteKey missing msg orphan rewrite start e t w.start = missing t :=
    rewriteKey_missing msg orphan hg
  rw [hgone] at hb
  exact hmissing hb

theorem Coalesces.wellFormed' (h : Coalesces rewrite start e t t') : t'.WellFormed := by
  refine h.rel (R := fun t t' => t.WellFormed → t'.WellFormed) (fun _ => id)
    (fun h1 h2 h => h2 (h1 h)) (fun {missing msg orphan t v t'} hw hv hm hb _ => ?_) h.wellFormed
  obtain ⟨t1, ht1, hst⟩ := rewriteKey_turns msg orphan missing h.keepsRange t v hw hv hm
  rw [hb] at ht1
  rw [Except.ok.inj ht1]
  exact hst.wellFormed

end Coalescing

section Splitting

variable {σ : Type} (tree : σ → VmaTree) {body : σ → UserVirtAddr → Except Panic σ}
  (hbody : ∀ s v, (tree s).WellFormed → (tree s).Has v →
    Meets start stop v → ∃ s', body s v.start = .ok s' ∧
      Spliced (tree s) v (mid v) start stop (tree s'))

include hbody

theorem split_turns : Turns tree body (fun _ _ => false) mid start stop := by
  intro s v hw hv hm
  obtain ⟨s', hs', hsp⟩ := hbody s v hw hv hm
  exact ⟨s', hs', hsp.stepped⟩

/-- A loop without coalescing: every collected VMA is spliced. -/
theorem splitLoop_spec (s : σ) (hw : (tree s).WellFormed) (hrange : start.asU64 < stop)
    (hkey : endKey.asU64 ≤ stop) :
    ∃ s', (((tree s).collect start endKey).map Prod.fst).foldlM body s = .ok s' ∧
      Overlaid mid start stop ((tree s).collected start endKey) (tree s) (tree s') := by
  have hchain : ((tree s).collected start endKey).IsChain fun _ _ => false = false :=
    (List.pairwise_of_forall fun _ _ => rfl).isChain
  rw [collect_keys hw]
  obtain ⟨s', hs', ho⟩ := loop_spec (split_turns tree hbody) (fun _ _ => nofun) _ s
    (collected_pending hw hrange hkey) (.inr hchain)
  rw [taken_of_isChain hchain] at ho
  exact ⟨s', hs', ho⟩

theorem splitLoop_rel {R : σ → σ → Prop} (hrefl : ∀ s, R s s)
    (htrans : ∀ {a b c}, R a b → R b c → R a c)
    {s s' : σ} (hw : (tree s).WellFormed) (hrange : start.asU64 < stop)
    (hkey : endKey.asU64 ≤ stop)
    (hR : ∀ s1 v s2, v ∈ (tree s).collected start endKey → (tree s1).WellFormed →
      (tree s1).Has v → Meets start stop v → body s1 v.start = .ok s2 → R s1 s2)
    (h : (((tree s).collect start endKey).map Prod.fst).foldlM body s = .ok s') : R s s' := by
  rw [collect_keys hw] at h
  exact loop_rel (split_turns tree hbody) (fun _ _ => nofun) hrefl htrans (fun _ _ _ _ => nofun) _
    s s' (collected_pending hw hrange hkey) hR h

end Splitting

theorem mapTake_of_get? (hv : t.Has v) : t.mapTake v.start = some (v, t.without v.start) := by
  rw [mapTake, hv]
  rfl

theorem protRewrite_keepsRange (newProt : VmaProt) (pkey : Option (BitVec 8)) :
    KeepsRange (protRewrite newProt pkey) := fun _ => ⟨rfl, rfl⟩

theorem flagsRewrite_keepsRange (set clear : VmaFlags) : KeepsRange (flagsRewrite set clear) :=
  fun _ => ⟨rfl, rfl⟩

theorem uffdRewrite_keepsRange (ctx : Option Arc) (modes : VmaFlags) :
    KeepsRange (uffdRewrite ctx modes) := by
  intro m
  cases ctx with
  | none => exact ⟨rfl, rfl⟩
  | some => exact ⟨rfl, rfl⟩

theorem sealRewrite_keepsRange : KeepsRange sealRewrite := fun _ => ⟨rfl, rfl⟩

theorem anonNameRewrite_keepsRange (name : Option String) : KeepsRange (anonNameRewrite name) :=
  fun _ => ⟨rfl, rfl⟩

theorem policyRewrite_keepsRange (pol : Option MemPolicy) : KeepsRange (policyRewrite pol) :=
  fun _ => ⟨rfl, rfl⟩

theorem check_range {c : Except Error Unit}
    (h : (if start.asU64 ≥ e.asU64 then .error .inval else c) = .ok ()) :
    start.asU64 < e.asU64 := by
  by_cases hr : start.asU64 ≥ e.asU64
  · cases (if_pos hr).symm.trans h
  · omega

variable {check : Except Error Unit} {loop : Except Panic VmaTree}

/-- A call that validates its range and then runs a loop. -/
theorem checked_spec
    {mid : Vma → Option Vma} (hcheck : check = .ok () → start.asU64 < stop)
    (hloop : start.asU64 < stop → ∃ t', loop = .ok t' ∧ Overlaid mid start stop vs t t') :
    ∃ t', (match check with
        | .error e => .ok (.error e, t)
        | .ok () => do
          let t' ← loop
          return (.ok (), t') : Except Panic (Except Error Unit × VmaTree)) = .ok (check, t') ∧
      Loops (check = .ok ()) mid start stop vs t t' := by
  cases check with
  | error => exact ⟨t, rfl, fun _ => rfl, fun h => absurd h (by simp)⟩
  | ok =>
    obtain ⟨t', rfl, ho⟩ := hloop (hcheck rfl)
    exact ⟨t', rfl, fun h => absurd rfl h, fun h => ⟨hcheck h, ho⟩⟩

theorem checked_run {t' : VmaTree}
    (h : (match check with
        | .error e => .ok (.error e, t)
        | .ok () => do
          let t' ← loop
          return (.ok (), t') : Except Panic (Except Error Unit × VmaTree)).map Prod.snd = .ok t') :
    t' = t ∨ check = .ok () ∧ loop = .ok t' := by
  cases check with
  | error => exact .inl (Except.ok.inj h).symm
  | ok =>
  cases loop with
  | error => simp [Except.map] at h
  | ok => exact .inr ⟨rfl, h⟩

/-- `mprotect` never panics; a refused call changes nothing, an admitted one rewrites every VMA
that has not been absorbed before its turn. -/
theorem mprotectRangeWithPkey_spec (hw : t.WellFormed) (start e : UserVirtAddr) (newProt : VmaProt)
    (pkey : Option (BitVec 8)) :
    ∃ t', t.mprotectRangeWithPkey start e newProt pkey = .ok (t.mprotectCheck start e newProt, t') ∧
      Loops (t.mprotectCheck start e newProt = .ok ())
        (fun v => some (protRewrite newProt pkey (midPiece start e.asU64 v))) start e.asU64
        (taken (absorbs (protRewrite newProt pkey) start e.asU64) (t.collected start e)) t t' :=
  checked_spec check_range fun hr =>
    rewriteLoop_skip "UVA in range" .ok (protRewrite_keepsRange newProt pkey) hw hr

theorem sealKey_spec (start e : UserVirtAddr) (t : VmaTree) (v : Vma) (hw : t.WellFormed)
    (hv : t.Has v) (hm : Meets start e.asU64 v) :
    ∃ t', sealKey start e t v.start = .ok t' ∧
      Spliced t v (some (sealRewrite (midPiece start e.asU64 v))) start e.asU64 t' := by
  obtain ⟨t1, ht1, hsp⟩ := splitRewrite_spec mapPut_map "UVA in range"
    sealRewrite_keepsRange hw hv hm
  refine ⟨t1.vmaClosed v, ?_, hsp.of_map_eq rfl⟩
  simp only [sealKey, mapTake_of_get? hv, expect_some, ht1, bind, Except.bind, pure, Except.pure]

/-- `mseal` never panics; a refused call changes nothing. -/
theorem sealRange_spec (hw : t.WellFormed) (start e : UserVirtAddr) :
    ∃ t', t.sealRange start e = .ok (t.sealCheck start e, t') ∧ Loops (t.sealCheck start e = .ok ())
        (fun v => some (sealRewrite (midPiece start e.asU64 v))) start e.asU64
        (t.collected start e) t t' :=
  checked_spec check_range fun hr => splitLoop_spec id (sealKey_spec start e) t hw hr le_rfl

theorem policyKey_spec (start e : UserVirtAddr) (hrw : KeepsRange rewrite) (t : VmaTree) (v : Vma)
    (hw : t.WellFormed) (hv : t.Has v) (hm : Meets start e.asU64 v) :
    ∃ t', policyKey rewrite start e t v.start = .ok t' ∧
      Spliced t v (some (rewrite (midPiece start e.asU64 v))) start e.asU64 t' := by
  obtain ⟨t1, ht1, hsp⟩ := splitRewrite_spec mapReinsert_map "UVA in range" hrw hw hv hm
  refine ⟨t1, ?_, hsp⟩
  simp only [policyKey, mapTake_of_get? hv, expect_some, ht1, bind, Except.bind, pure, Except.pure]

/-- The policy writers never panic. -/
theorem rewriteRange_spec (hw : t.WellFormed) (start e : UserVirtAddr) (hrw : KeepsRange rewrite) :
    ∃ t', t.rewriteRange start e rewrite = .ok t' ∧
      Loops (start.asU64 < e.asU64) (fun v => some (rewrite (midPiece start e.asU64 v))) start
        e.asU64 (t.collected start e) t t' := by
  rw [rewriteRange]
  split_ifs with hr
  · exact ⟨t, rfl, fun _ => rfl, fun h => absurd hr (by omega)⟩
  · obtain ⟨t', ht', ho⟩ := splitLoop_spec id (policyKey_spec start e hrw) t hw (by omega) le_rfl
    exact ⟨t', ht', fun h => absurd (not_le.mp hr) h, fun h => ⟨h, ho⟩⟩

theorem removeKey_eq {st : List Vma × VmaTree} (hv : st.2.Has v) :
    removeKey start stop st v.start = .ok (st.1 ++ [midPiece start stop v],
      (putAll mapPut (st.2.without v.start) (pieces none start stop v)).vmaClosed v) := by
  simp only [removeKey, mapTake_of_get? hv, keepLeft_eq, keepRight_eq, new_clipStart,
    new_clipEnd, pieces, putAll_append]
  rfl

theorem removeKey_spec (start : UserVirtAddr) (stop : ℕ) (st : List Vma × VmaTree) (v : Vma)
    (hw : st.2.WellFormed) (hv : st.2.Has v) (hm : Meets start stop v) :
    ∃ st', removeKey start stop st v.start = .ok st' ∧ Spliced st.2 v none start stop st'.2 :=
  ⟨_, removeKey_eq hv, (splice_spec hw hv hm fun m h => absurd h (by simp)).of_map_eq
    (putAll_pieces_map mapPut_map ..)⟩

variable (hw : t.WellFormed)
include hw

/-- Removal never panics. -/
theorem removeRange_spec (start e : UserVirtAddr) :
    ∃ removed t', t.removeRange start e = .ok (removed, t') ∧
      Loops (start.asU64 < e.asU64) (fun _ => none) start e.asU64 (t.collected start e) t t' := by
  rw [removeRange, removeRangeRawEnd]
  split_ifs with hr
  · exact ⟨[], t, rfl, fun _ => rfl, fun h => absurd hr (by omega)⟩
  have hkey : rawEndKey e.asU64 = some e := by
    rw [rawEndKey, new_eq_some e.isUser]
    rfl
  rw [hkey]
  obtain ⟨⟨removed, t'⟩, ht', ho⟩ := splitLoop_spec Prod.snd
    (removeKey_spec start e.asU64) (([], t) : List Vma × VmaTree) hw (by omega) (le_refl e.asU64)
  exact ⟨removed, t', ht', fun h => absurd (not_le.mp hr) h, fun h => ⟨h, ho⟩⟩

section Removal

variable {t' : VmaTree} {e : UserVirtAddr}
  (ho : Overlaid (fun _ => none) start e.asU64 (t.collected start e) t t')
include ho hw

/-- A removal leaves nothing in its range. -/
theorem Overlaid.findContaining_eq_none (hs : start.asU64 ≤ va.asU64) (he : va.asU64 < e.asU64) :
    t'.findContaining va = none := by
  have hview := ho.view_eq MergeView.location va
  rw [overlay] at hview
  cases hf : (t.collected start e).find? fun v => v.contains va with
  | some =>
    rw [hf] at hview
    simp only [pieceView] at hview
    rw [if_neg (by omega), if_pos he] at hview
    exact Option.map_eq_none_iff.mp hview
  | none =>
  rw [hf] at hview
  cases hv : t.findContaining va with
  | none => exact Option.map_eq_none_iff.mp (hview.trans (by rw [view, hv]; rfl))
  | some v =>
    obtain ⟨hget, hc⟩ := (findContaining_eq_some_iff hw).mp hv
    obtain ⟨hc1, hc2⟩ := Vma.contains_iff.mp hc
    have hmem : v ∈ t.collected start e :=
      (mem_collected_iff hw).mpr ⟨hget, lt_iff.mpr (by omega), by omega⟩
    exact absurd hc (by simpa using List.find?_eq_none.mp hf v hmem)

/-- A VMA over the range fits in what a removal leaves. -/
theorem Overlaid.fits {v : Vma} (hs : v.start = start) (he : v.end = e)
    (hne : v.start.asU64 < v.end.asU64) : t'.Fits v := by
  intro k u hu
  subst hs he
  by_contra hmeet
  have hu' := ho.wellFormed.nonempty hu
  have hva := clipStart_asU64 v.start u
  have hfind : t'.findContaining (clipStart v.start u) = some u :=
    (findContaining_eq_some_iff ho.wellFormed).mpr
      ⟨ho.wellFormed.has hu, Vma.contains_iff.mpr ⟨by omega, by omega⟩⟩
  rw [ho.findContaining_eq_none hw (by omega) (by omega)] at hfind
  cases hfind

end Removal

/-- The name writer ends normally exactly when it refuses the call or no renamed fragment may
absorb the VMA collected next. -/
theorem setAnonNameRange_runsIff (start e : UserVirtAddr) (name : Option String) :
    RunsIff ((t.setAnonNameRange start e name).map Prod.snd)
      (t.anonNameCheck start e = .ok () → t.NeverAbsorbs (anonNameRewrite name) start e) := by
  rw [setAnonNameRange]
  cases hc : t.anonNameCheck start e with
  | error => exact ⟨fun _ h => absurd h (by simp), fun _ => ⟨t, rfl, hw⟩⟩
  | ok _ =>
  have hloop := rewriteLoop_runsIff "validated VMA boundary" (fun _ => .error ⟨"left VMA"⟩)
    (anonNameRewrite_keepsRange name) hw (check_range hc) ⟨"collected VMA key"⟩
  generalize List.foldlM (m := Except Panic) _ t ((t.collect start e).map Prod.fst) = r
    at hloop ⊢
  cases r with
  | error => exact ⟨fun h _ => hloop.keeps h, fun hk => hloop.runs (hk rfl)⟩
  | ok => exact ⟨fun h _ => hloop.keeps h, fun hk => hloop.runs (hk rfl)⟩

/-- The neighbours on both sides leave the range free, so every VMA does. -/
theorem fits_of_neighbours {vma : Vma}
    (h2 : ¬ ((t.map.floor? vma.start).any fun p => p.2.end.asU64 > vma.start.asU64) = true)
    (h3 : ¬ ((t.map.next? vma.start).any fun n => n.2.start.asU64 < vma.end.asU64) = true) :
    t.Fits vma := by
  intro k' v' hg
  have hk := hw.keyed hg
  rcases le_or_gt k' vma.start with hle | hgt
  · left
    cases hf : t.map.floor? vma.start with
    | none => exact absurd hle (floor?_eq_none_iff.mp hf k' v' hg)
    | some p =>
    obtain ⟨pk, pv⟩ := p
    obtain ⟨hpg, -, hmax⟩ := floor?_eq_some_iff.mp hf
    have hend : pv.end.asU64 ≤ vma.start.asU64 := by simpa [hf] using h2
    rcases (hmax k' v' hg hle).lt_or_eq with hlt | heq
    · have := hw.end_le hg hpg hlt
      have := hw.nonempty hpg
      omega
    rw [heq, hpg] at hg
    rwa [← Option.some_inj.mp hg]
  right
  cases hf : t.map.next? vma.start with
  | none => exact absurd hgt (next?_eq_none_iff.mp hf k' v' hg)
  | some p =>
  obtain ⟨nk, nv⟩ := p
  obtain ⟨hng, -, hmin⟩ := next?_eq_some_iff.mp hf
  have hend : vma.end.asU64 ≤ nv.start.asU64 := by simpa [hf] using h3
  have hle : nv.start ≤ v'.start := by
    rw [hw.keyed hng, hk]
    exact hmin k' v' hg hgt
  exact hend.trans hle

/-- Insertion never panics. -/
theorem insert_spec (vma : Vma) : ∃ r t', t.insert vma = .ok (r, t') ∧ t'.WellFormed := by
  by_cases h1 : vma.start.asU64 ≥ vma.end.asU64
  · exact ⟨_, t, by rw [VmaTree.insert, if_pos h1], hw⟩
  by_cases h2 : ((t.map.floor? vma.start).any fun p => p.2.end.asU64 > vma.start.asU64) = true
  · exact ⟨_, t, by rw [VmaTree.insert, if_neg h1, if_pos h2], hw⟩
  by_cases h3 : ((t.map.next? vma.start).any fun n => n.2.start.asU64 < vma.end.asU64) = true
  · exact ⟨_, t, by rw [VmaTree.insert, if_neg h1, if_neg h2, if_pos h3], hw⟩
  have hfit := fits_of_neighbours hw h2 h3
  have hput : (t.mapPut vma.start vma).WellFormed :=
    (hw.store (by omega) hfit).of_map_eq rfl
  have hget : (t.mapPut vma.start vma).Has vma := by
    rw [Has, mapPut_map, get?_insert, if_pos rfl]
  obtain ⟨t', ht', hr⟩ := remerge_spec hput hget (.ok vma.start)
  refine ⟨.ok (), t', ?_, hr.wellFormed⟩
  rw [VmaTree.insert, if_neg h1, if_neg h2, if_neg h3]
  simp only [ht', bind, Except.bind, pure, Except.pure]

/-- The gap down to the lower neighbour is free for a VMA that grows into it. -/
theorem fits_of_lower_neighbour (hg : t.Has v) {newStart : UserVirtAddr}
    (h3 : ¬ ((t.map.prev? v.start).any fun l => l.2.end.asU64 > newStart.asU64) = true) :
    (t.without v.start).Fits { v with start := newStart } := by
  intro k' v' hg'
  obtain ⟨hkne, hg'⟩ := of_get?_without hg'
  rcases lt_or_gt_of_ne hkne with hlt | hgt
  · left
    cases hf : t.map.prev? v.start with
    | none => exact absurd hlt (prev?_eq_none_iff.mp hf k' v' hg')
    | some p =>
    obtain ⟨pk, pv⟩ := p
    obtain ⟨hpg, -, hmax⟩ := prev?_eq_some_iff.mp hf
    have hend : pv.end.asU64 ≤ newStart.asU64 := by simpa [hf] using h3
    rcases (hmax k' v' hg' hlt).lt_or_eq with hlt' | heq
    · have := hw.end_le hg' hpg hlt'
      have := hw.nonempty hpg
      show v'.end.asU64 ≤ newStart.asU64
      omega
    rw [heq, hpg] at hg'
    rwa [← Option.some_inj.mp hg']
  · have habove := hw.end_le hg hg' hgt
    exact .inr habove

/-- What an attempt to grow a stack leaves: the VMA re-keyed at its new start, or the tree. -/
theorem extendGrowsdownStart_run (currentStart newStart : UserVirtAddr) :
    ((t.extendGrowsdownStart currentStart newStart).1 = .error .inval ∧
      (t.extendGrowsdownStart currentStart newStart).2 = t) ∨
    ∃ v, t.map.get? currentStart = some v ∧ bitsContain v.flags VmaFlags.GROWSDOWN = true ∧
      newStart.asU64 < currentStart.asU64 ∧
      (t.without v.start).Fits { v with start := newStart } ∧
      t.extendGrowsdownStart currentStart newStart =
        (.ok (), (t.without v.start).store { v with start := newStart }) := by
  rw [extendGrowsdownStart]
  by_cases h1 : newStart.asU64 ≥ currentStart.asU64
  · rw [if_pos h1]
    exact .inl ⟨rfl, rfl⟩
  by_cases h2 : newStart.asU64 % PAGE_SIZE_BYTES ≠ 0
  · rw [if_neg h1, if_pos h2]
    exact .inl ⟨rfl, rfl⟩
  by_cases h3 : ((t.map.prev? currentStart).any fun l => l.2.end.asU64 > newStart.asU64) = true
  · rw [if_neg h1, if_neg h2, if_pos h3]
    exact .inl ⟨rfl, rfl⟩
  rw [if_neg h1, if_neg h2, if_neg h3]
  cases hg : t.map.get? currentStart with
  | none =>
    rw [mapTake, hg]
    exact .inl ⟨rfl, rfl⟩
  | some v =>
  obtain rfl := hw.keyed hg
  rw [mapTake_of_get? hg]
  by_cases hflag : bitsContain v.flags VmaFlags.GROWSDOWN = true
  · simp only [hflag]
    exact .inr ⟨v, rfl, hflag, by omega, fits_of_lower_neighbour hw hg h3, rfl⟩
  simp only [hflag]
  refine .inl ⟨rfl, ?_⟩
  -- taken out and put back as it was
  show VmaTree.mk ((t.map.erase v.start).insert v.start v) t.events = t
  rw [insert_erase_self, insert_self hg]

theorem extendGrowsdownStart_wellFormed (currentStart newStart : UserVirtAddr) :
    (t.extendGrowsdownStart currentStart newStart).2.WellFormed := by
  rcases extendGrowsdownStart_run hw currentStart newStart with ⟨-, h⟩ | ⟨v, hg, -, hlt, hfit, h⟩
  · rwa [h]
  obtain rfl := hw.keyed hg
  have hne := hw.nonempty hg
  rw [h]
  refine (hw.without v.start).store ?_ hfit
  show newStart.asU64 < v.end.asU64
  omega

end VmaTree

/-! ### Totality -/

/-- The operations that change a VMA tree. -/
inductive TreeOp
  | insert (vma : Vma)
  | removeRange (start «end» : UserVirtAddr)
  | mprotectRangeWithPkey (start «end» : UserVirtAddr) (newProt : VmaProt)
      (pkey : Option (BitVec 8))
  | updateFlagsRange (start «end» : UserVirtAddr) (set clear : VmaFlags)
  | setUffdRange (start «end» : UserVirtAddr) (ctx : Option Arc) (modes : VmaFlags)
  | sealRange (start «end» : UserVirtAddr)
  | setAnonNameRange (start «end» : UserVirtAddr) (name : Option String)
  | setPolicyRange (start «end» : UserVirtAddr) (pol : Option MemPolicy)
  | extendGrowsdownStart (currentStart newStart : UserVirtAddr)

namespace TreeOp

open VmaTree

/-- The tree an operation leaves, whatever it returns. -/
def run (t : VmaTree) : TreeOp → Except Panic VmaTree
  | insert vma => (t.insert vma).map Prod.snd
  | removeRange start e => (t.removeRange start e).map Prod.snd
  | mprotectRangeWithPkey start e newProt pkey =>
    (t.mprotectRangeWithPkey start e newProt pkey).map Prod.snd
  | updateFlagsRange start e set clear => t.updateFlagsRange start e set clear
  | setUffdRange start e ctx modes => t.setUffdRange start e ctx modes
  | sealRange start e => (t.sealRange start e).map Prod.snd
  | setAnonNameRange start e name => (t.setAnonNameRange start e name).map Prod.snd
  | setPolicyRange start e pol => t.setPolicyRange start e pol
  | extendGrowsdownStart currentStart newStart =>
    .ok (t.extendGrowsdownStart currentStart newStart).2

/-- The three writers that take every collected key for granted run on a range in which no
rewritten fragment may absorb the VMA collected next. -/
def KeepsCollectedKeys (t : VmaTree) : TreeOp → Prop
  | updateFlagsRange start e set clear =>
    start.asU64 < e.asU64 → t.NeverAbsorbs (flagsRewrite set clear) start e
  | setUffdRange start e ctx modes =>
    start.asU64 < e.asU64 → t.NeverAbsorbs (uffdRewrite ctx modes) start e
  | setAnonNameRange start e name =>
    t.anonNameCheck start e = .ok () → t.NeverAbsorbs (anonNameRewrite name) start e
  | _ => True

theorem coalescing_runsIff (hw : t.WellFormed) (hrw : KeepsRange rewrite) (msg : String)
    (p : Panic) (orphan : UserVirtAddr → Except Panic UserVirtAddr) :
    RunsIff (if start.asU64 ≥ e.asU64 then .ok t else
        ((t.collect start e).map Prod.fst).foldlM
          (rewriteKey (fun _ => .error p) msg orphan rewrite start e) t)
      (start.asU64 < e.asU64 → t.NeverAbsorbs rewrite start e) := by
  split_ifs with hr
  · exact ⟨fun _ h => absurd h (by omega), fun _ => ⟨t, rfl, hw⟩⟩
  · have hloop := rewriteLoop_runsIff msg orphan hrw hw (not_le.mp hr) p
    exact ⟨fun h _ => hloop.keeps h, fun h => hloop.runs (h (not_le.mp hr))⟩

/-- **An operation ends normally exactly when it keeps the collected keys**, and leaves a
well-formed tree. -/
theorem run_runsIff (hw : t.WellFormed) (op : TreeOp) :
    RunsIff (op.run t) (op.KeepsCollectedKeys t) := by
  cases op with
  | insert =>
    obtain ⟨r, t', h, hw'⟩ := insert_spec hw ..
    exact .of_total ⟨t', by rw [run, h]; rfl, hw'⟩
  | removeRange =>
    obtain ⟨removed, t', h, hl⟩ := removeRange_spec hw ..
    exact .of_total ⟨t', by rw [run, h]; rfl, hl.wellFormed hw⟩
  | mprotectRangeWithPkey =>
    obtain ⟨t', h, hl⟩ := mprotectRangeWithPkey_spec hw ..
    exact .of_total ⟨t', by rw [run, h]; rfl, hl.wellFormed hw⟩
  | updateFlagsRange start e set clear =>
    exact coalescing_runsIff hw (flagsRewrite_keepsRange set clear) ..
  | setUffdRange start e ctx modes =>
    exact coalescing_runsIff hw (uffdRewrite_keepsRange ctx modes) ..
  | sealRange =>
    obtain ⟨t', h, hl⟩ := sealRange_spec hw ..
    exact .of_total ⟨t', by rw [run, h]; rfl, hl.wellFormed hw⟩
  | setAnonNameRange => exact setAnonNameRange_runsIff hw ..
  | setPolicyRange start e pol =>
    obtain ⟨t', h, hl⟩ := rewriteRange_spec hw start e (policyRewrite_keepsRange pol)
    exact .of_total ⟨t', h, hl.wellFormed hw⟩
  | extendGrowsdownStart =>
    exact .of_total ⟨_, rfl, extendGrowsdownStart_wellFormed hw ..⟩

/-- **Every operation on a well-formed tree ends normally with a well-formed tree, except that
the flag, userfaultfd and name writers panic exactly when a rewritten fragment may absorb the
VMA collected next.** -/
theorem endsWellFormed_iff {t : VmaTree} (hw : t.WellFormed) (op : TreeOp) :
    (∃ t', op.run t = .ok t' ∧ t'.WellFormed) ↔ op.KeepsCollectedKeys t :=
  ⟨fun ⟨_, h, _⟩ => (run_runsIff hw op).keeps h, (run_runsIff hw op).runs⟩

/-- **An operation that ends normally leaves a well-formed tree.** -/
theorem run_wellFormed (hw : t.WellFormed) {op : TreeOp} (h : op.run t = .ok t') :
    t'.WellFormed := by
  have hruns := run_runsIff hw op
  obtain ⟨t1, h1, hw1⟩ := hruns.runs (hruns.keeps h)
  cases h1.symm.trans h
  exact hw1

/-- Private read-write memory over `[start, end)`. -/
def plainVma (start «end» : UserVirtAddr) (flags : VmaFlags) (backing : VmaBacking) : Vma where
  start := start
  «end» := «end»
  prot := 3
  mayProt := 7
  pkey := 0
  flags := flags
  backing := backing
  rss := 0
  anonVma := none
  anonPages := false
  fileRmap := none
  anonName := none
  uffd := none
  mempolicy := none
  mappingOrigin := none

/-- The page address `0x1000 * n`. -/
def pageAddr (n : Fin 16) : UserVirtAddr :=
  ⟨4096 * n, by have := n.isLt; rw [USER_VA_END]; omega⟩

instance : NeZero 16 := ⟨by decide⟩

/-- Two abutting anonymous VMAs of one page, of which the second is locked. -/
def lockedPair : VmaTree :=
  (VmaTree.new.store (plainVma (pageAddr 1) (pageAddr 2) 6 .anonymous)).store
    (plainVma (pageAddr 2) (pageAddr 3) (6 ||| VmaFlags.LOCKED) .anonymous)

theorem lockedPair_wellFormed : lockedPair.WellFormed := by
  refine (WellFormed.new.store (by decide) (fits_new _)).store (by decide) ?_
  exact (fits_new _).store (.inl (by decide))

/-- Locking the two pages together panics: the first, once locked, absorbs the second, whose key
was collected. -/
theorem lockedPair_updateFlagsRange_panics : lockedPair.WellFormed ∧
    (updateFlagsRange (pageAddr 1) (pageAddr 3) VmaFlags.LOCKED 0).run lockedPair =
      .error ⟨"collected key"⟩ :=
  ⟨lockedPair_wellFormed, rfl⟩

theorem lockedPair_updateFlagsRange_total :
    (updateFlagsRange (pageAddr 1) (pageAddr 2) VmaFlags.LOCKED 0).KeepsCollectedKeys lockedPair ∧
    ∃ t', (updateFlagsRange (pageAddr 1) (pageAddr 2) VmaFlags.LOCKED 0).run lockedPair = .ok t' ∧
      t'.WellFormed := by
  have hkeeps : (updateFlagsRange (pageAddr 1) (pageAddr 2) VmaFlags.LOCKED 0).KeepsCollectedKeys
      lockedPair := fun _ => List.IsChain.singleton _
  exact ⟨hkeeps, (endsWellFormed_iff lockedPair_wellFormed _).mpr hkeeps⟩

end TreeOp

end Oxide
