/-
The balance of the `vm_ops` hooks.

A mapped object counts the VMAs that reference it through two hooks: `open` runs when a VMA
comes into existence, `close` when one goes away, and the object is torn down when the
difference reaches zero. This file compares the difference with the number of VMAs of the tree
that reference the object.

* `Hooked`: a change of the tree that moves the two together, and during which the difference
  is positive at every hook if the object is still referenced at the end;
* `Cut.quiet`, `Merges.quiet`: a cut and a coalescing are such changes;
* `HookOp.run_balanced`: **the two agree in every run whose policy writes cut no VMA of a mapped
  object**. The policy writers replace VMAs by their pieces without running the hooks.
-/
import Oxide.VmaTally

namespace Oxide

open List VmEvent TreeOp

variable {e : UserVirtAddr} {orphan : UserVirtAddr → Except Panic UserVirtAddr}
  {rewrite : Vma → Vma} {t t' t1 t2 t3 : VmaTree}

/-- The mapped object behind a VMA, if it has one. -/
def Vma.object (v : Vma) : Option Arc :=
  match v.backing with
  | .file backing _ => some backing
  | _ => none

/-- Whether a hook run opens the object. -/
def VmEvent.opens (o : Arc) : VmEvent → Bool
  | .opened v => v.object = some o
  | .closed _ => false

/-- Whether a hook run closes the object. -/
def VmEvent.closes (o : Arc) : VmEvent → Bool
  | .opened _ => false
  | .closed v => v.object = some o

namespace VmaTree

/-- Runs of `vma_opened` minus runs of `vma_closed` for the object. -/
def difference (o : Arc) (es : List VmEvent) : ℤ :=
  es.countP (opens o) - es.countP (closes o)

/-- One reference if the VMA references the object. -/
def weigh (o : Arc) (v : Vma) : ℕ := if v.object = some o then 1 else 0

/-- The number of VMAs of the tree that reference the object. -/
def refs (o : Arc) (t : VmaTree) : ℕ := t.tally (weigh o)

/-! ### The difference -/

variable {o : Arc} {es : List VmEvent} {t : VmaTree} {v : Vma}

theorem difference_append (o : Arc) (es1 es2 : List VmEvent) :
    difference o (es1 ++ es2) = difference o es1 + difference o es2 := by
  simp only [difference, countP_append]
  omega

theorem difference_opened (o : Arc) (v : Vma) (es : List VmEvent) :
    difference o (.opened v :: es) = difference o es + weigh o v := by
  rw [← singleton_append, difference_append, add_comm]
  by_cases h : v.object = some o <;> simp [difference, opens, closes, weigh]

theorem difference_closed (o : Arc) (v : Vma) (es : List VmEvent) :
    difference o (.closed v :: es) = difference o es - weigh o v := by
  rw [← singleton_append, difference_append, add_comm, sub_eq_add_neg]
  by_cases h : v.object = some o <;> simp [difference, opens, closes, weigh]

/-- A series of hooks moves the difference by the sum of what each of them does. -/
theorem difference_all {hook : Vma → VmEvent} {c : ℤ}
    (h : ∀ v, difference o [hook v] = c * weigh o v) (ws : List Vma) (es : List VmEvent) :
    difference o ((ws.map hook).reverse ++ es) = difference o es + c * (ws.map (weigh o)).sum := by
  induction ws generalizing es with
  | nil => simp
  | cons w ws ih =>
  rw [map_cons, reverse_cons, append_assoc, ih, difference_append, h, map_cons, sum_cons]
  push_cast
  ring

theorem difference_opened_all (o : Arc) (ws : List Vma) (es : List VmEvent) :
    difference o ((ws.map opened).reverse ++ es) = difference o es + (ws.map (weigh o)).sum := by
  rw [difference_all fun v => by rw [difference_opened, one_mul]; exact zero_add _, one_mul]

theorem difference_closed_all (o : Arc) (ws : List Vma) (es : List VmEvent) :
    difference o ((ws.map closed).reverse ++ es) = difference o es - (ws.map (weigh o)).sum := by
  rw [difference_all fun v => by rw [difference_closed, neg_one_mul]; exact zero_sub _]
  ring

theorem difference_le_of_opened {s : List VmEvent} (hs : ∀ e ∈ s, ∃ w, e = .opened w)
    (es : List VmEvent) : difference o es ≤ difference o (s ++ es) := by
  induction s with
  | nil => exact le_rfl
  | cons e s ih =>
  obtain ⟨w, rfl⟩ := hs e (by simp)
  have hih := ih fun e he => hs e (mem_cons_of_mem _ he)
  rw [cons_append, difference_opened]
  omega

/-! ### Changes that keep the balance -/

/-- A change of the tree and its hook trace: reference count and difference move together, and
while the hooks run the difference of an object that is referenced afterwards stays positive. -/
structure Hooked (t t' : VmaTree) : Prop where
  gap : ∀ o, difference o t'.events - refs o t' = difference o t.events - refs o t
  hooks : ∃ es, t'.events = es ++ t.events ∧ ∀ o, difference o t.events = refs o t →
    0 < refs o t' → ∀ s, s <:+ es → s ≠ [] → 0 < difference o (s ++ t.events)

/-- A change that moreover brings no new object. -/
structure Quiet (t t' : VmaTree) : Prop extends Hooked t t' where
  mono : ∀ o, 0 < refs o t' → 0 < refs o t

theorem Quiet.refl (t : VmaTree) : Quiet t t where
  gap _ := rfl
  hooks := ⟨[], rfl, fun _ _ _ _ hs hne => absurd (suffix_nil.mp hs) hne⟩
  mono _ h := h

theorem Hooked.trans_quiet (h1 : Hooked t1 t2) (h2 : Quiet t2 t3) :
    Hooked t1 t3 where
  gap o := (h2.gap o).trans (h1.gap o)
  hooks := by
    obtain ⟨es1, he1, hp1⟩ := h1.hooks
    obtain ⟨es2, he2, hp2⟩ := h2.hooks
    refine ⟨es2 ++ es1, by rw [he2, he1, append_assoc], fun o hbal hpos s hs hne => ?_⟩
    have hgap := h1.gap o
    rcases suffix_or_suffix_of_suffix hs (suffix_append es2 es1) with hs | ⟨s', rfl⟩
    · exact hp1 o hbal (h2.mono o hpos) s hs hne
    -- the hook belongs to the second change, or is the last of the first
    rcases eq_or_ne s' [] with rfl | hne'
    · exact hp1 o hbal (h2.mono o hpos) es1 (suffix_refl _) (by simpa using hne)
    obtain ⟨r, hr⟩ := hs
    rw [← append_assoc] at hr
    have hpos' := hp2 o (by omega) hpos s' ⟨r, append_cancel_right hr⟩ hne'
    rwa [he1, ← append_assoc] at hpos'

theorem Quiet.trans (h1 : Quiet t1 t2) (h2 : Quiet t2 t3) : Quiet t1 t3 where
  toHooked := h1.toHooked.trans_quiet h2
  mono o h := h1.mono o (h2.mono o h)

/-- A change that runs no hook and keeps the counts. -/
theorem Quiet.of_refs_eq (hev : t'.events = t.events) (h : ∀ o, refs o t' = refs o t) :
    Quiet t t' where
  gap o := by rw [hev, h]
  hooks := ⟨[], hev, fun _ _ _ _ hs hne => absurd (suffix_nil.mp hs) hne⟩
  mono o hpos := by rwa [h] at hpos

theorem refs_pos (hv : t.Has v) (h : v.object = some o) : 0 < refs o t := by
  have := tally_without (weigh o) hv
  rw [weigh, if_pos h] at this
  rw [refs]
  omega

theorem weigh_congr {w : Vma} (h : w.object = v.object) (o : Arc) : weigh o w = weigh o v := by
  rw [weigh, weigh, h]

theorem object_cloneSubrange (v : Vma) (s e : UserVirtAddr) :
    (v.cloneSubrange s e).object = v.object := by
  cases hb : v.backing <;> simp [Vma.object, Vma.cloneSubrange, VmaBacking.rebase, hb]

variable {start : UserVirtAddr} {stop : ℕ} {mid : Option Vma}

theorem object_of_mem_pieces (hmid : ∀ m ∈ mid, m.object = v.object) {w : Vma}
    (h : w ∈ pieces mid start stop v) : w.object = v.object := by
  simp only [pieces, mem_append, Option.mem_toList] at h
  rcases h with h | h | h
  · rw [(mem_leftPiece h).2, object_cloneSubrange]
  · exact hmid w h
  · rw [(mem_rightPiece h).2, object_cloneSubrange]

theorem sum_weigh_pieces_of_ne (hmid : ∀ m ∈ mid, m.object = v.object) (ho : v.object ≠ some o) :
    ((pieces mid start stop v).map (weigh o)).sum = 0 := by
  refine sum_eq_zero fun n hn => ?_
  obtain ⟨w, hw, rfl⟩ := mem_map.mp hn
  rw [weigh, object_of_mem_pieces hmid hw, if_neg ho]

/-- **Replacing a VMA by its pieces, with the hooks, keeps the balance.** -/
theorem Cut.quiet (hc : Cut t v mid start stop t') (hw : t.WellFormed)
    (hv : t.Has v) (hm : Meets start stop v) (hfill : Fills start stop v mid)
    (hmid : ∀ m ∈ mid, m.object = v.object) : Quiet t t' := by
  have hrefs : ∀ o, weigh o v + refs o t' =
      ((pieces mid start stop v).map (weigh o)).sum + refs o t := by
    intro o
    rw [refs, tally_congr _ hc.map_eq, splice_tally (weigh o) hw hv hm hfill]
    rfl
  have hgap : ∀ o, difference o t'.events - refs o t' = difference o t.events - refs o t := by
    intro o
    have h1 := hrefs o
    rw [hc.events_eq, difference_closed, difference_opened_all]
    omega
  have hmono : ∀ o, 0 < refs o t' → 0 < refs o t := by
    intro o hpos
    by_cases ho : v.object = some o
    · exact refs_pos hv ho
    · have h1 := hrefs o
      rw [sum_weigh_pieces_of_ne hmid ho] at h1
      omega
  have hev : t'.events =
      (.closed v :: ((pieces mid start stop v).map opened).reverse) ++ t.events := by
    rw [hc.events_eq, cons_append]
  refine ⟨⟨hgap, _, hev, fun o hbal hpos s hs hne => ?_⟩, hmono⟩
  rcases suffix_cons_iff.mp hs with rfl | hs
  · -- after the last hook the difference is the new count
    have h1 := hgap o
    rw [← hev]
    omega
  -- before it, pieces have only been opened
  have hle : difference o t.events ≤ difference o (s ++ t.events) := by
    refine difference_le_of_opened (fun e he => ?_) t.events
    obtain ⟨w, -, rfl⟩ := mem_map.mp (mem_reverse.mp (hs.subset he))
    exact ⟨w, rfl⟩
  have := hmono o hpos
  omega

/-- **Coalescing keeps the balance**: the absorbed VMA is closed while the survivor is there. -/
theorem Merges.quiet (h : Merges t t') (hw : t.WellFormed) : Quiet t t' := by
  induction h with
  | refl t => exact Quiet.refl t
  | @step t t1 t' l r hs hev hrest ih =>
    refine Quiet.trans ?_ (ih (hs.wellFormed hw))
    have hrefs : ∀ o, weigh o r + refs o t1 = refs o t := by
      intro o
      have h1 := hs.tally_eq (weigh o) hw
      have h2 : weigh o (l.absorb r) = weigh o l := weigh_congr rfl o
      rw [refs, refs]
      omega
    have hgap : ∀ o, difference o t1.events - refs o t1 = difference o t.events - refs o t := by
      intro o
      have h1 := hrefs o
      rw [hev, difference_closed]
      omega
    refine ⟨⟨hgap, [.closed r], hev, fun o hbal hpos s hs hne => ?_⟩, fun o hpos => ?_⟩
    · rcases suffix_cons_iff.mp hs with rfl | hs
      · have h1 := hgap o
        have h2 : [closed r] ++ t.events = t1.events := hev.symm
        rw [h2]
        omega
      · exact absurd (suffix_nil.mp hs) hne
    · have h1 := hrefs o
      omega

/-! ### The operations -/

/-- A rewrite that leaves bounds and object of a VMA alone. -/
structure KeepsObject (rewrite : Vma → Vma) : Prop where
  keepsRange : KeepsRange rewrite
  object_eq : ∀ m, (rewrite m).object = m.object

theorem KeepsObject.object_mid (hrw : KeepsObject rewrite) (start : UserVirtAddr) (stop : ℕ)
    (v : Vma) : ∀ m ∈ some (rewrite (midPiece start stop v)), m.object = v.object := by
  intro m hm
  cases hm
  rw [hrw.object_eq, midPiece, object_cloneSubrange]

theorem keepsObject_of_backing (hr : KeepsRange rewrite)
    (hb : ∀ m, (rewrite m).backing = m.backing) : KeepsObject rewrite where
  keepsRange := hr
  object_eq m := by rw [Vma.object, Vma.object, hb]

theorem Coalesces.quiet (h : Coalesces rewrite start e t t') (hrw : KeepsObject rewrite) :
    Quiet t t' := by
  refine h.cuts Quiet.refl Quiet.trans fun {t v t1 t'} hw hv hm hcut hw1 hmerge => ?_
  exact (hcut.quiet hw hv hm (hrw.keepsRange.fills start e.asU64 v)
    (hrw.object_mid start e.asU64 v)).trans (hmerge.merges.quiet hw1)

theorem sealRewrite_keepsObject : KeepsObject sealRewrite :=
  keepsObject_of_backing sealRewrite_keepsRange fun _ => rfl

theorem sealLoop_quiet (hw : t.WellFormed) (hrange : start.asU64 < e.asU64)
    (h : ((t.collect start e).map Prod.fst).foldlM (sealKey start e) t = .ok t') : Quiet t t' := by
  refine splitLoop_rel id (sealKey_spec start e) Quiet.refl Quiet.trans hw hrange le_rfl
    (fun t v t' _ hw hv hm hb => ?_) h
  exact (sealKey_run hv hb).quiet hw hv hm (sealRewrite_keepsRange.fills start e.asU64 v)
    (sealRewrite_keepsObject.object_mid start e.asU64 v)

theorem removeRangeRawEnd_quiet (hw : t.WellFormed) {removed : List Vma}
    (h : t.removeRangeRawEnd start stop = .ok (removed, t')) : Quiet t t' :=
  removeRangeRawEnd_rel (R := fun s s' => Quiet s.2 s'.2) (fun s => Quiet.refl s.2) Quiet.trans hw
    (fun hw hv hm _ hcut => hcut.quiet hw hv hm (fun m hm => absurd hm (by simp))
      fun m hm => absurd hm (by simp)) h

theorem insert_hooked {vma : Vma} (hw : t.WellFormed) {r : Except Error Unit}
    (h : t.insert vma = .ok (r, t')) : Hooked t t' := by
  rcases insert_run hw h with ⟨-, rfl, -⟩ | ⟨-, hne, hfit, hmerge⟩
  · exact (Quiet.refl _).toHooked
  have hput : (t.mapPut vma.start vma).WellFormed := (hw.store hne hfit).of_map_eq rfl
  have hrefs : ∀ o, refs o (t.mapPut vma.start vma) = weigh o vma + refs o t := fun o =>
    tally_store (weigh o) hw hfit hne
  have hgap : ∀ o, difference o (t.mapPut vma.start vma).events -
      refs o (t.mapPut vma.start vma) = difference o t.events - refs o t := by
    intro o
    have h1 := hrefs o
    have h2 := difference_opened o vma t.events
    show difference o (.opened vma :: t.events) - _ = _
    omega
  refine Hooked.trans_quiet ⟨hgap, [.opened vma], rfl, fun o hbal hpos s hs hne => ?_⟩
    (hmerge.merges.quiet hput)
  rcases suffix_cons_iff.mp hs with rfl | hs
  · have h1 := hgap o
    show 0 < difference o (t.mapPut vma.start vma).events
    omega
  · exact absurd (suffix_nil.mp hs) hne

theorem extendGrowsdownStart_quiet (hw : t.WellFormed) (currentStart newStart : UserVirtAddr) :
    Quiet t (t.extendGrowsdownStart currentStart newStart).2 := by
  rcases extendGrowsdownStart_run hw currentStart newStart with ⟨-, h⟩ | ⟨v, hg, -, hlt, hfit, h⟩
  · rw [h]
    exact Quiet.refl t
  obtain rfl := hw.keyed hg
  have hne := hw.nonempty hg
  rw [h]
  refine Quiet.of_refs_eq rfl fun o => ?_
  have hout := tally_without (weigh o) hg
  rw [refs, refs, tally_store (weigh o) (hw.without v.start) hfit (by simp only; omega), ← hout]
  exact congrArg (· + _) (weigh_congr rfl o)

/-! ### The policy writers -/

/-- The VMA references no object, or lies inside the range. -/
def Undivided (start e : UserVirtAddr) (v : Vma) : Prop :=
  v.object.isSome → start.asU64 ≤ v.start.asU64 ∧ v.end.asU64 ≤ e.asU64

/-- A policy write runs no hook, and keeps the counts if it divides no VMA of an object. -/
theorem policyKey_quiet (hrw : KeepsObject rewrite) (hw : t.WellFormed)
    (hv : t.Has v) (hm : Meets start e.asU64 v) (hu : Undivided start e v)
    (h : policyKey rewrite start e t v.start = .ok t') : Quiet t t' := by
  obtain ⟨hmap, hev⟩ := policyKey_run hrw.keepsRange hv h
  refine Quiet.of_refs_eq hev fun o => ?_
  have htally := splice_tally (weigh o) hw hv hm (hrw.keepsRange.fills start e.asU64 v)
  have hsum : ((pieces (some (rewrite (midPiece start e.asU64 v))) start e.asU64 v).map
      (weigh o)).sum = weigh o v := by
    by_cases ho : v.object = some o
    · -- the VMA lies inside the range, so the middle is its only piece
      obtain ⟨h1, h2⟩ := hu (by rw [ho]; rfl)
      have hmid := hrw.object_mid start e.asU64 v _ rfl
      rw [pieces, leftPiece, if_neg (by omega), rightPiece, if_neg (by omega)]
      simpa using weigh_congr hmid o
    · rw [sum_weigh_pieces_of_ne (hrw.object_mid start e.asU64 v) ho, weigh, if_neg ho]
  rw [refs, refs, tally_congr _ hmap]
  omega

theorem rewriteRange_quiet (hrw : KeepsObject rewrite) (hw : t.WellFormed)
    (hu : ∀ v ∈ t.collected start e, Undivided start e v)
    (h : t.rewriteRange start e rewrite = .ok t') : Quiet t t' := by
  rw [rewriteRange] at h
  split_ifs at h with hr
  · obtain rfl := Except.ok.inj h
    exact Quiet.refl t
  · exact splitLoop_rel id (policyKey_spec start e hrw.keepsRange) Quiet.refl Quiet.trans hw
      (by omega) le_rfl
      (fun t v t' hv' hw hv hm hb => policyKey_quiet hrw hw hv hm (hu v hv') hb) h

/-- What the scan of the home-node writer collects when it is not refused. -/
theorem homeNodeRanges_eq {l : List (UserVirtAddr × Vma)}
    {ranges : List (UserVirtAddr × UserVirtAddr)}
    (h : homeNodeRanges start e l = .ok (.ok ranges)) :
    ranges = ((l.map Prod.snd).filter fun v =>
      decide (v.end.asU64 > start.asU64) && v.mempolicy.isSome).map
        fun v => (clipStart start v, clipEnd e.asU64 v) := by
  induction l generalizing ranges with
  | nil => exact (Except.ok.inj (Except.ok.inj h)).symm
  | cons p rest ih =>
  obtain ⟨k, v⟩ := p
  rw [homeNodeRanges] at h
  by_cases hend : v.end.asU64 ≤ start.asU64
  · rw [if_pos hend] at h
    rw [ih h, map_cons, filter_cons_of_neg]
    simp only [Bool.and_eq_true, decide_eq_true_eq]
    omega
  rw [if_neg hend] at h
  cases hp : v.mempolicy with
  | none =>
    rw [hp] at h
    rw [ih h]
    simp [hp]
  | some =>
  simp only [hp] at h
  split_ifs at h with hmode
  · have hs := new_clipStart start v
    rw [max_comm] at hs
    have he := new_clipEnd e.asU64 v
    rw [min_comm] at he
    rw [hs, he] at h
    obtain ⟨r, hr, h⟩ := Except.bind_eq_ok (x := homeNodeRanges start e rest).mp h
    cases r with
    | error => simp [pure, Except.pure, Except.map] at h
    | ok rs =>
      have hrs : (clipStart start v, clipEnd e.asU64 v) :: rs = ranges :=
        Except.ok.inj (Except.ok.inj h)
      rw [← hrs, ih hr, map_cons, filter_cons_of_pos, map_cons]
      simp only [hp, Option.isSome_some, Bool.and_true, decide_eq_true_eq]
      omega
  · cases h

/-- A policy write to the part of one VMA inside the range meets only that VMA. -/
theorem rewriteRange_within (hrw : KeepsObject rewrite) (hw : t.WellFormed)
    (hv : t.Has v) (hm : Meets start e.asU64 v) (hu : Undivided start e v)
    (h : t.rewriteRange (clipStart start v) (clipEnd e.asU64 v) rewrite = .ok t') :
    t'.WellFormed ∧ Quiet t t' ∧ ∀ k : UserVirtAddr, v.end.asU64 ≤ k.asU64 →
      t'.map.get? k = t.map.get? k := by
  obtain ⟨hne, hrange, hlt, hgt⟩ := id hm
  have hs := clipStart_asU64 start v
  have he : (clipEnd e.asU64 v).asU64 = min e.asU64 v.end.asU64 := rfl
  have honly : ∀ w ∈ t.collected (clipStart start v) (clipEnd e.asU64 v), w = v := by
    intro w hmem
    obtain ⟨hg, h1, h2⟩ := (mem_collected_iff hw).mp hmem
    rw [UserVirtAddr.lt_iff] at h1
    by_contra hne'
    have hkey : w.start ≠ v.start := by
      intro heq
      rw [Has, heq, hv] at hg
      exact hne' (Option.some_inj.mp hg).symm
    have := hw.disjoint hg hv hkey
    omega
  have hu' : Undivided (clipStart start v) (clipEnd e.asU64 v) v := by
    intro ho
    obtain ⟨h1, h2⟩ := hu ho
    omega
  have hr : ¬ (clipStart start v).asU64 ≥ (clipEnd e.asU64 v).asU64 := by omega
  have hquiet := rewriteRange_quiet hrw hw
    (fun w hmem => (honly w hmem).symm ▸ hu') h
  rw [rewriteRange, if_neg hr] at h
  obtain ⟨hw', hkeep⟩ := splitLoop_rel id
    (policyKey_spec (clipStart start v) (clipEnd e.asU64 v) hrw.keepsRange)
    (R := fun t t' => (t.WellFormed → t'.WellFormed) ∧
      ∀ k : UserVirtAddr, v.end.asU64 ≤ k.asU64 → t'.map.get? k = t.map.get? k)
    (fun _ => ⟨id, fun _ _ => rfl⟩)
    (fun h₁ h₂ => ⟨fun h => h₂.1 (h₁.1 h), fun k hk => (h₂.2 k hk).trans (h₁.2 k hk)⟩)
    hw (by omega) le_rfl (fun t1 w t2 hmem hw1 hg hm1 hb => by
      obtain rfl := honly w hmem
      obtain ⟨t3, ht3, hsp⟩ := policyKey_spec _ _ hrw.keepsRange t1 w hw1 hg hm1
      rw [hb] at ht3
      cases ht3
      exact ⟨fun _ => hsp.wellFormed, fun k hk => hsp.get?_above hk⟩) h
  exact ⟨hw' hw, hquiet, hkeep⟩

/-- The writes of the home-node writer, one VMA after the other. -/
theorem homeNodeLoop_quiet (hrw : KeepsObject rewrite)
    (vs : List Vma) (t t' : VmaTree) (hp : Pending t start e.asU64 vs)
    (hu : ∀ v ∈ vs, Undivided start e v)
    (h : (vs.map fun v => (clipStart start v, clipEnd e.asU64 v)).foldlM
      (fun t r => t.rewriteRange r.1 r.2 rewrite) t = .ok t') :
    t'.WellFormed ∧ Quiet t t' := by
  induction vs generalizing t with
  | nil =>
    obtain rfl : t = t' := Except.ok.inj h
    exact ⟨hp.wellFormed, Quiet.refl t⟩
  | cons v vs ih =>
  have hv := hp.present v (by simp)
  have hm := hp.meets v (by simp)
  obtain ⟨t1, hr, h⟩ := Except.bind_eq_ok.mp h
  obtain ⟨hw1, hq, hkeep⟩ := rewriteRange_within hrw hp.wellFormed hv hm (hu v (by simp)) hr
  have hord := pairwise_cons.mp hp.ordered
  have hp1 : Pending t1 start e.asU64 vs := by
    refine ⟨hw1, fun w hmem => ?_, fun w hmem => hp.meets w (mem_cons_of_mem v hmem), hord.2⟩
    rw [hkeep w.start (hord.1 w hmem)]
    exact hp.present w (mem_cons_of_mem v hmem)
  obtain ⟨hw', hq'⟩ := ih t1 hp1 (fun w hmem => hu w (mem_cons_of_mem v hmem)) h
  exact ⟨hw', hq.trans hq'⟩

/-- Over an empty range the home-node writer writes nothing. -/
theorem homeNodeLoop_of_le (rewrite : Vma → Vma) (hr : e.asU64 ≤ start.asU64) (vs : List Vma)
    (t : VmaTree) :
    (vs.map fun v => (clipStart start v, clipEnd e.asU64 v)).foldlM
      (fun t r => t.rewriteRange r.1 r.2 rewrite) t = .ok t := by
  induction vs with
  | nil => rfl
  | cons v vs ih =>
  have hs := clipStart_asU64 start v
  have he : (clipEnd e.asU64 v).asU64 = min e.asU64 v.end.asU64 := rfl
  rw [map_cons, foldlM_cons, rewriteRange, if_pos (by simp only; omega)]
  exact ih

/-- The home-node writer keeps the balance if it divides no VMA of an object. -/
theorem setHomeNodeRange_quiet {homeNode : BitVec 32} (hw : t.WellFormed)
    (hu : ∀ v ∈ t.collected start e, v.mempolicy.isSome → Undivided start e v)
    {r : Except HomeNodeErr Unit} (h : t.setHomeNodeRange start e homeNode = .ok (r, t')) :
    t'.WellFormed ∧ Quiet t t' := by
  obtain ⟨ranges, hr, h⟩ := Except.bind_eq_ok.mp h
  cases ranges with
  | error =>
    obtain ⟨-, rfl⟩ := Prod.mk.inj (Except.ok.inj h)
    exact ⟨hw, Quiet.refl t⟩
  | ok =>
  obtain ⟨t1, hl, h⟩ := Except.bind_eq_ok.mp h
  obtain ⟨-, rfl⟩ := Prod.mk.inj (Except.ok.inj h)
  rw [homeNodeRanges_eq hr] at hl
  set vs := ((t.map.below e).map Prod.snd).filter fun v =>
    decide (v.end.asU64 > start.asU64) && v.mempolicy.isSome with hvs
  -- the VMAs with a policy are collected ones, in order
  have hsub : vs.Sublist (t.collected start e) := by
    have hcol : t.collected start e = ((t.map.below e).map Prod.snd).filter
        fun v => decide (v.end.asU64 > start.asU64) := by
      rw [filter_map]
      rfl
    rw [hvs, hcol, ← filter_filter]
    exact filter_sublist.filter _
  have hu' : ∀ v ∈ vs, Undivided start e v := by
    intro v hmem
    have hpol := (mem_filter.mp hmem).2
    rw [Bool.and_eq_true] at hpol
    exact hu v (hsub.subset hmem) hpol.2
  rcases le_or_gt e.asU64 start.asU64 with hr | hr
  · rw [homeNodeLoop_of_le (homeNodeRewrite homeNode) hr] at hl
    cases hl
    exact ⟨hw, Quiet.refl t⟩
  have hp := collected_pending hw hr (le_refl e.asU64)
  have hkeep : KeepsObject (homeNodeRewrite homeNode) :=
    keepsObject_of_backing (fun _ => ⟨rfl, rfl⟩) fun _ => rfl
  exact homeNodeLoop_quiet hkeep vs t t1
    ⟨hw, fun v h => hp.present v (hsub.subset h), fun v h => hp.meets v (hsub.subset h),
      hp.ordered.sublist hsub⟩ hu' hl

/-- Dropping a tree closes its VMAs one after the other; after each close the difference is the
number of references among those still to be closed. -/
theorem drop_difference (hbal : difference o t.events = refs o t) {done rest : List Vma}
    (h : t.map.values = done ++ rest) :
    difference o ((done.map closed).reverse ++ t.events) = (rest.map (weigh o)).sum := by
  have hrefs : refs o t = (done.map (weigh o)).sum + (rest.map (weigh o)).sum := by
    rw [refs, tally, OrdMap.total, h, map_append, sum_append]
  rw [difference_closed_all]
  omega

end VmaTree

/-! ### Runs -/

/-- The operations on a tree that may run hooks. -/
inductive HookOp
  | tree (op : TreeOp)
  | setHomeNodeRange (start «end» : UserVirtAddr) (homeNode : BitVec 32)

namespace HookOp

open VmaTree

def run (t : VmaTree) : HookOp → Except Panic VmaTree
  | tree op => op.run t
  | setHomeNodeRange start e homeNode => (t.setHomeNodeRange start e homeNode).map Prod.snd

/-- A policy write divides no VMA of a mapped object; the home-node writer touches only the VMAs
that carry a policy. -/
def DividesNoObject (t : VmaTree) : HookOp → Prop
  | tree (.setPolicyRange start e _) => ∀ v ∈ t.collected start e, Undivided start e v
  | setHomeNodeRange start e _ =>
    ∀ v ∈ t.collected start e, v.mempolicy.isSome → Undivided start e v
  | _ => True

/-- Every operation of a run divides no mapped object in the state it is applied to. -/
abbrev RunDividesNoObject : VmaTree → List HookOp → Prop := Run.MeetsOk run DividesNoObject

theorem coalescing_quiet (hw : t.WellFormed) {start : UserVirtAddr} (hrw : KeepsObject rewrite)
    {msg : String} {p : Panic} (h : (if start.asU64 ≥ e.asU64 then .ok t else
      ((t.collect start e).map Prod.fst).foldlM
        (rewriteKey (fun _ => .error p) msg orphan rewrite start e) t) = .ok t') : Quiet t t' := by
  split_ifs at h with hr
  · rw [← Except.ok.inj h]
    exact Quiet.refl t
  · exact Coalesces.quiet ⟨hrw.keepsRange, hw, by omega, _, _, _, by simp, h⟩ hrw

/-- **Every operation moves difference and reference count together.** -/
theorem treeOp_hooked (hw : t.WellFormed) {op : TreeOp} (hd : (tree op).DividesNoObject t)
    (h : op.run t = .ok t') : Hooked t t' := by
  cases op with
  | insert =>
    obtain ⟨r, t1, h1, -⟩ := insert_spec hw ..
    rw [TreeOp.run, h1] at h
    cases h
    exact insert_hooked hw h1
  | removeRange =>
    obtain ⟨removed, t1, h1, -⟩ := removeRange_spec hw ..
    rw [TreeOp.run, h1] at h
    cases h
    exact (removeRangeRawEnd_quiet hw h1).toHooked
  | mprotectRangeWithPkey start e newProt pkey =>
    rcases checked_run h with rfl | ⟨hc, h⟩
    · exact (Quiet.refl _).toHooked
    · have hrw := protRewrite_keepsRange newProt pkey
      exact (Coalesces.quiet ⟨hrw, hw, check_range hc, _, _, _, fun h => (Except.ok.inj h).symm, h⟩
        (keepsObject_of_backing hrw fun _ => rfl)).toHooked
  | updateFlagsRange start e set clear =>
    exact (coalescing_quiet hw
      (keepsObject_of_backing (flagsRewrite_keepsRange set clear) fun _ => rfl) h).toHooked
  | setUffdRange start e ctx modes =>
    refine (coalescing_quiet hw
      (keepsObject_of_backing (uffdRewrite_keepsRange ctx modes) fun m => ?_) h).toHooked
    cases ctx with
    | none => rfl
    | some => rfl
  | sealRange =>
    rcases checked_run h with rfl | ⟨hc, h⟩
    · exact (Quiet.refl _).toHooked
    · exact (sealLoop_quiet hw (check_range hc) h).toHooked
  | setAnonNameRange start e name =>
    rcases checked_run h with rfl | ⟨hc, h⟩
    · exact (Quiet.refl _).toHooked
    · have hrw := anonNameRewrite_keepsRange name
      exact (Coalesces.quiet ⟨hrw, hw, check_range hc, _, _, _, by simp, h⟩
        (keepsObject_of_backing hrw fun _ => rfl)).toHooked
  | setPolicyRange start e pol =>
    exact (rewriteRange_quiet (keepsObject_of_backing (policyRewrite_keepsRange pol) fun _ => rfl)
      hw hd h).toHooked
  | extendGrowsdownStart =>
    cases h
    exact (extendGrowsdownStart_quiet hw ..).toHooked

theorem hooked (hw : t.WellFormed) {op : HookOp} (hd : op.DividesNoObject t)
    (h : op.run t = .ok t') : t'.WellFormed ∧ Hooked t t' := by
  cases op with
  | tree => exact ⟨run_wellFormed hw h, treeOp_hooked hw hd h⟩
  | setHomeNodeRange =>
  obtain ⟨r, hr, rfl⟩ := Except.map_eq_ok.mp h
  obtain ⟨hw', hq⟩ := setHomeNodeRange_quiet hw hd hr
  exact ⟨hw', hq.toHooked⟩

/-- A run that divides no mapped object ends in a balanced tree. -/
theorem run_hooked (ops : List HookOp) (hw : t.WellFormed) (hd : RunDividesNoObject t ops)
    (h : ops.foldlM run t = .ok t') :
    t'.WellFormed ∧ ∀ o, difference o t'.events - refs o t' = difference o t.events - refs o t :=
  hd.trans (I := WellFormed) (fun _ _ => rfl) (fun h1 h2 o => (h2 o).trans (h1 o))
    (fun _ _ _ hw hd hr => (hooked hw hd hr).imp_right Hooked.gap) hw h

/-- **In every run whose policy writes divide no VMA of a mapped object**, the open calls of an
object minus its close calls are the VMAs that reference it; if the difference is zero right
after a hook of the next operation, no VMA that references the object remains after it; and
dropping the tree brings the difference down to the references not yet closed, so to zero. -/
theorem run_balanced (ops : List HookOp) (t : VmaTree) (hrun : ops.foldlM run VmaTree.new = .ok t)
    (hwhole : RunDividesNoObject VmaTree.new ops) (o : Arc) :
    difference o t.events = refs o t ∧
    (∀ (op : HookOp) (t' : VmaTree), op.DividesNoObject t → op.run t = .ok t' →
      ∃ es, t'.events = es ++ t.events ∧
      ∀ s, s <:+ es → s ≠ [] → difference o (s ++ t.events) = 0 → refs o t' = 0) ∧
    (∀ done rest, t.map.values = done ++ rest →
      difference o ((done.map closed).reverse ++ t.events) = (rest.map (weigh o)).sum) ∧
    difference o t.drop.events = 0 := by
  obtain ⟨hw, hgap⟩ := run_hooked ops WellFormed.new hwhole hrun
  have hbal : difference o t.events = refs o t := by
    have h := hgap o
    have h0 : difference o VmaTree.new.events - refs o VmaTree.new = 0 := rfl
    omega
  refine ⟨hbal, fun op t' hd hr => ?_, fun done rest h => drop_difference hbal h, ?_⟩
  · obtain ⟨-, hh⟩ := hooked hw hd hr
    obtain ⟨es, hes, hpos⟩ := hh.hooks
    refine ⟨es, hes, fun s hs hne hzero => ?_⟩
    by_contra hrefs
    have := hpos o hbal (by omega) s hs hne
    omega
  · exact drop_difference hbal (append_nil t.map.values).symm

/-- A shared segment mapped over three pages. -/
def segmentVma : Vma :=
  plainVma (pageAddr 1) (pageAddr 4) VmaFlags.SYSVSHM (.file ⟨7⟩ 0)

def bindPolicy : MemPolicy := ⟨MPOL_BIND, 0, 1, 1, 0⟩

/-- Binding the middle page of the segment divides its VMA in three without a hook; unmapping
one of the three then brings the difference to zero while two remain. -/
theorem policy_write_unbalances :
    ∃ t, [tree (.insert segmentVma),
        tree (.setPolicyRange (pageAddr 2) (pageAddr 3) (some bindPolicy)),
        tree (.removeRange (pageAddr 1) (pageAddr 2))].foldlM run VmaTree.new =
          .ok t ∧ difference ⟨7⟩ t.events = 0 ∧ refs ⟨7⟩ t = 2 :=
  ⟨_, rfl, rfl, rfl⟩

/-- Map the segment and bind all of it. -/
def bindWholeSegment : List HookOp :=
  [tree (.insert segmentVma), tree (.setPolicyRange (pageAddr 1) (pageAddr 4) (some bindPolicy))]

theorem bindWholeSegment_divides_none : RunDividesNoObject VmaTree.new bindWholeSegment := by
  refine ⟨trivial, fun t1 h1 => ?_⟩
  cases h1
  refine ⟨fun v hv => ?_, fun t2 _ => trivial⟩
  have hone : v ∈ [segmentVma] := hv
  rw [mem_singleton.mp hone]
  exact fun _ => ⟨by decide, by decide⟩

theorem bindWholeSegment_balanced : ∃ t, bindWholeSegment.foldlM run VmaTree.new = .ok t ∧
    difference ⟨7⟩ t.events = refs ⟨7⟩ t ∧ refs ⟨7⟩ t = 1 :=
  ⟨_, rfl, (run_balanced bindWholeSegment _ rfl bindWholeSegment_divides_none ⟨7⟩).1, rfl⟩

end HookOp

end Oxide
