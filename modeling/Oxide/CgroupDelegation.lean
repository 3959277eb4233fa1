/-
Controllers handed down the hierarchy.

A directory delegates controllers to its children by writing `+name` and `-name` tokens to its
`cgroup.subtree_control`. The write changes the word of the directory and what its children may
use; the words of the children stay.

* `CgTree.writeSubtreeControl`: the write, with all tokens read before anything changes;
* `CgTree.TopDown`: no directory delegates what was not delegated to it;
* `CgTree.topDown_of_kept`: it holds along every run whose writes leave to a directory what its
  children delegate further.
-/
import Oxide.CgroupCoherent
import Oxide.CgroupSubtree

namespace Oxide

open OrdMap

/-- The names of the controllers, with their bits. -/
def CTRL_TABLE : List (String × BitVec 8) :=
  [("cpu", 1#8), ("cpuset", 1#8 <<< 4), ("io", 1#8 <<< 2), ("memory", MEMORY),
    ("hugetlb", 1#8 <<< 5), ("pids", PIDS)]

def ctrlBit (name : List Char) : Option (BitVec 8) :=
  (CTRL_TABLE.find? fun e => e.1.toList = name).map Prod.snd

/-- What one token makes of the word. -/
def applyToken (avail set : BitVec 8) : List Char → Except CgErr (BitVec 8)
  | '+' :: name =>
    match ctrlBit name with
    | none => .error .einval
    | some bit => if avail &&& bit = 0#8 then .error .enospc else .ok (set ||| bit)
  | '-' :: name =>
    match ctrlBit name with
    | none => .error .einval
    | some bit => .ok (set &&& ~~~bit)
  | _ => .error .einval

/-- The tokens of a write. -/
def tokens (buf : String) : List (List Char) :=
  (splitAtChars isWhitespace buf.toList).filter fun tok => !tok.isEmpty

namespace CgTree

/-- Every controller of `a` is one of `b`. -/
def Within (a b : BitVec 8) : Prop := ∀ i : Fin 8, a[i] = true → b[i] = true

instance {a b : BitVec 8} : Decidable (Within a b) :=
  inferInstanceAs (Decidable (∀ i : Fin 8, a[i] = true → b[i] = true))

variable {t t' : CgTree} {id k p x a : ℕ} {n m : CgNode} {set : BitVec 8} {buf : String}

/-- The children learn what they may use. -/
def setAvail (set : BitVec 8) (kids : List ℕ) (t : CgTree) : CgTree :=
  kids.foldl (fun t k => t.modify k fun c => { c with avail := set }) t

/-- The write, with the tree it leaves: every token is read before anything changes. -/
def writeSubtreeControl (t : CgTree) (id : ℕ) (buf : String) : CgTree × Except CgErr (BitVec 8) :=
  match t.nodes.get? id with
  | none => (t, .error .enoent)
  | some n =>
    match (tokens buf).foldlM (applyToken n.avail) n.subtreeControl with
    | .error e => (t, .error e)
    | .ok set =>
      ((t.modify id fun n => { n with subtreeControl := set }).setAvail set n.children.values,
        .ok set)

/-- What is done to directories. -/
inductive DirEvent
  | create (parent : ℕ) (name : String)
  | remove (id : ℕ)
  | write (id : ℕ) (buf : String)

/-- A call that is refused changes nothing. -/
def stepDir (t : CgTree) : DirEvent → CgTree
  | .create parent name =>
    match t.create parent name with
    | .error _ => t
    | .ok (t', _) => t'
  | .remove id =>
    match t.remove id with
    | .error _ => t
    | .ok t' => t'
  | .write id buf => (t.writeSubtreeControl id buf).1

/-- A directory delegates of what it may use, and that is what its parent delegates. -/
structure Delegated (t : CgTree) : Prop where
  formed : t.Formed
  within : ∀ k n, t.nodes.get? k = some n → Within n.subtreeControl n.avail
  passed : ∀ k n p m, t.nodes.get? k = some n → n.parent = some p → t.nodes.get? p = some m →
    n.avail = m.subtreeControl

/-- **Delegation is top-down**: what a directory may use or delegates, all above it do. -/
structure TopDown (t : CgTree) : Prop extends Delegated t where
  whole : ∀ k n a m, t.nodes.get? k = some n → (a, m) ∈ t.path k →
    Within n.avail m.avail ∧ Within n.subtreeControl m.subtreeControl
  refused : ∀ id buf e, (t.writeSubtreeControl id buf).2 = .error e →
    (t.writeSubtreeControl id buf).1 = t

/-- A write that is accepted leaves in the word of the directory what its children delegate. -/
def Kept (t : CgTree) : DirEvent → Prop
  | .write id buf => ∀ set, (t.writeSubtreeControl id buf).2 = .ok set →
    ∀ e ∈ t.nodes.entries, e.2.parent = some id → Within e.2.subtreeControl set
  | _ => True

/-! ### Words -/

/-- A controller is one bit, available or not. -/
theorem ctrlBit_within {name : List Char} {bit avail : BitVec 8} (hb : ctrlBit name = some bit)
    (h : avail &&& bit ≠ 0#8) : Within bit avail := by
  obtain ⟨e, he, rfl⟩ := Option.map_eq_some_iff.mp hb
  have hall : ∀ e ∈ CTRL_TABLE, ∀ avail : BitVec 8, avail &&& e.2 ≠ 0#8 →
      ∀ i : Fin 8, e.2[i] = true → avail[i] = true := by decide +kernel
  exact hall e (List.mem_of_find?_eq_some he) avail h

/-- The tokens keep a word within what is available. -/
theorem applyToken_within {avail set set' : BitVec 8} {tok : List Char}
    (h : applyToken avail set tok = .ok set') (hs : Within set avail) : Within set' avail := by
  unfold applyToken at h
  split at h
  · split at h
    · cases h
    rename_i bit hb
    obtain ⟨hav, h⟩ := Except.ite_error_eq_ok.mp h
    cases h
    have hbit := ctrlBit_within hb hav
    grind [Within]
  · split at h
    · cases h
    cases h
    grind [Within]
  · cases h

theorem foldlM_within {avail set set' : BitVec 8} {toks : List (List Char)}
    (h : toks.foldlM (applyToken avail) set = .ok set') (hs : Within set avail) :
    Within set' avail := by
  induction toks generalizing set with
  | nil =>
    cases h
    exact hs
  | cons tok toks ih =>
  obtain ⟨set1, h1, h2⟩ := Except.bind_eq_ok.mp h
  exact ih h2 (applyToken_within h1 hs)

/-! ### One write -/

theorem setAvail_get? (set : BitVec 8) (kids : List ℕ) (t : CgTree) :
    (t.setAvail set kids).nextId = t.nextId ∧ ∀ k, (t.setAvail set kids).nodes.get? k =
      (t.nodes.get? k).map fun c => if k ∈ kids then { c with avail := set } else c := by
  induction kids generalizing t with
  | nil => exact ⟨rfl, fun k => by simp [setAvail]⟩
  | cons c kids ih =>
  obtain ⟨hid, hget⟩ := ih (t.modify c fun c => { c with avail := set })
  have hfr := Frame.modify (F := fun _ => ()) t c (f := fun c => { c with avail := set })
    fun _ => rfl
  refine ⟨hid.trans hfr.nextId, fun k => (hget k).trans ?_⟩
  rw [modify_get?]
  by_cases hk : k = c <;> cases t.nodes.get? k <;> simp [hk]

theorem writeSubtreeControl_refused {e : CgErr} (hw : (t.writeSubtreeControl id buf).2 = .error e) :
    (t.writeSubtreeControl id buf).1 = t := by
  unfold writeSubtreeControl at hw ⊢
  split
  · rfl
  rename_i n hn
  cases hset : (tokens buf).foldlM (applyToken n.avail) n.subtreeControl with
  | error => rfl
  | ok => simp [hn, hset] at hw

/-- A write that is accepted: the directory has the new word, its children may use it, and nothing
else changes. -/
theorem writeSubtreeControl_eq_ok (h : t.Formed) (hw : (t.writeSubtreeControl id buf).2 = .ok set) :
    ∃ n, t.nodes.get? id = some n ∧
      (tokens buf).foldlM (applyToken n.avail) n.subtreeControl = .ok set ∧
      (t.writeSubtreeControl id buf).1.nextId = t.nextId ∧
      ∀ k, (t.writeSubtreeControl id buf).1.nodes.get? k = (t.nodes.get? k).map fun m =>
        { m with
          subtreeControl := if k = id then set else m.subtreeControl
          avail := if m.parent = some id then set else m.avail } := by
  unfold writeSubtreeControl at hw ⊢
  cases hn : t.nodes.get? id with
  | none => simp [hn] at hw
  | some n =>
  cases hset : (tokens buf).foldlM (applyToken n.avail) n.subtreeControl with
  | error => simp [hn, hset] at hw
  | ok set' =>
  simp only [hn, hset] at hw
  cases hw
  obtain ⟨hid, hget⟩ := setAvail_get? set n.children.values
    (t.modify id fun n => { n with subtreeControl := set })
  have hfr := Frame.modify (F := fun _ => ()) t id (f := fun n => { n with subtreeControl := set })
    fun _ => rfl
  dsimp only
  rw [hset]
  refine ⟨n, rfl, hset, hid.trans hfr.nextId, fun k => ?_⟩
  rw [hget, modify_get?]
  cases hm : t.nodes.get? k with
  | none => simp
  | some m =>
  have hkid : k ∈ n.children.values ↔ m.parent = some id := by
    rw [mem_values_iff]
    constructor
    · rintro ⟨nm, hc⟩
      obtain ⟨m', hm', hp, -⟩ := h.child id n nm k hn hc
      cases hm.symm.trans hm'
      exact hp
    · intro hp
      obtain ⟨-, n', hn', hc⟩ := h.parent k m id hm hp
      cases hn.symm.trans hn'
      exact ⟨m.name, hc⟩
  simp only [hkid]
  by_cases hk : k = id <;> by_cases hp : m.parent = some id <;> simp [hk, hp]

/-! ### Runs -/

theorem Delegated.topDown (h : t.Delegated) : t.TopDown := by
  refine ⟨h, ?_, fun id buf e => writeSubtreeControl_refused⟩
  -- up the walk to the root, which ends as ids fall
  intro k
  induction k using Nat.strong_induction_on with
  | _ k ih =>
  intro n a m hn hm
  cases hp : n.parent with
  | none =>
    rw [path_of_root hn hp, List.mem_singleton] at hm
    cases hm
    exact ⟨fun _ => id, fun _ => id⟩
  | some p =>
    rw [path_of_parent h.formed hn hp] at hm
    rcases List.mem_cons.mp hm with heq | hm
    · cases heq
      exact ⟨fun _ => id, fun _ => id⟩
    obtain ⟨hlt, q, hq, -⟩ := h.formed.parent k n p hn hp
    obtain ⟨hav, hsc⟩ := ih p hlt q a m hq hm
    have hpass := h.passed k n p q hn hp hq
    refine ⟨fun i hi => hav i (h.within p q hq i (hpass ▸ hi)), fun i hi => hsc i ?_⟩
    exact hpass ▸ h.within k n hn i hi

theorem Delegated.write (h : t.Delegated) (hk : Kept t (.write id buf))
    (hw : (t.writeSubtreeControl id buf).2 = .ok set) :
    (t.writeSubtreeControl id buf).1.Delegated := by
  obtain ⟨n, hn, hset, hid, hget⟩ := writeSubtreeControl_eq_ok h.formed hw
  have hshape : Keeps CgNode.shape t (t.writeSubtreeControl id buf).1 := by
    intro k
    rw [hget, Option.map_map]
    rfl
  refine ⟨hshape.formed hid h.formed, fun k m' hm' => ?_, fun k m' p q' hm' hp hq' => ?_⟩
  · rw [hget] at hm'
    obtain ⟨m, hm, rfl⟩ := Option.map_eq_some_iff.mp hm'
    by_cases hki : k = id
    · subst hki
      cases hn.symm.trans hm
      have hself : n.parent ≠ some k := fun hp => (h.formed.parent k n k hn hp).1.ne rfl
      rw [if_pos rfl, if_neg hself]
      exact foldlM_within hset (h.within k n hn)
    rw [if_neg hki]
    split
    case isTrue hp => exact hk set hw (k, m) (get?_eq_some_iff_mem.mp hm) hp
    · exact h.within k m hm
  rw [hget] at hm' hq'
  obtain ⟨m, hm, rfl⟩ := Option.map_eq_some_iff.mp hm'
  obtain ⟨q, hq, rfl⟩ := Option.map_eq_some_iff.mp hq'
  by_cases hpi : p = id
  · rw [if_pos hpi, if_pos (hp.trans (congrArg some hpi))]
  · rw [if_neg hpi, if_neg fun he => hpi (Option.some.inj (hp.symm.trans he))]
    exact h.passed k m p q hm hp hq

theorem Delegated.created {parent : ℕ} {name : String} (h : t.Delegated)
    (hc : Created t t' parent name id) : t'.Delegated := by
  obtain ⟨q, hq, hnew⟩ := hc.new
  refine ⟨hc.formed h.formed, fun k m' hm' => ?_, fun k m' p q' hm' hp hq' => ?_⟩
  · by_cases hki : k = id
    · rw [hki, hnew] at hm'
      cases hm'
      simp [Within, CgNode.new]
    · obtain ⟨m, hm, heq, -⟩ := hc.get? hm' hki
      rw [heq]
      exact h.within k m hm
  by_cases hki : k = id
  · rw [hki, hnew] at hm'
    cases hm'
    cases hp
    obtain ⟨-, r, hr, heq, -⟩ := hc.get?' h.formed hq
    cases hr.symm.trans hq'
    rw [heq]
    rfl
  · obtain ⟨m, hm, heq, -⟩ := hc.get? hm' hki
    rw [heq] at hp ⊢
    obtain ⟨-, q0, hq0, -⟩ := h.formed.parent k m p hm hp
    obtain ⟨-, r, hr, hreq, -⟩ := hc.get?' h.formed hq0
    cases hr.symm.trans hq'
    rw [hreq]
    exact h.passed k m p q0 hm hp hq0

theorem Delegated.removed (h : t.Delegated) (hr : Removed t t' id n) : t'.Delegated := by
  refine ⟨hr.formed h.formed, fun k m' hm' => ?_, fun k m' p q' hm' hp hq' => ?_⟩
  · obtain ⟨-, m, hm, heq, -⟩ := hr.get? hm'
    rw [heq]
    exact h.within k m hm
  obtain ⟨-, m, hm, heq, -⟩ := hr.get? hm'
  obtain ⟨-, q, hq, hqeq, -⟩ := hr.get? hq'
  rw [heq] at hp ⊢
  rw [hqeq]
  exact h.passed k m p q hm hp hq

/-- A call is refused, makes a directory, removes one, or writes. -/
theorem stepDir_cases (h : t.Formed) (e : DirEvent) : t.stepDir e = t ∨
    (∃ parent name id, Created t (t.stepDir e) parent name id) ∨
    (∃ id n, Removed t (t.stepDir e) id n) ∨
    ∃ id buf set, e = .write id buf ∧ (t.writeSubtreeControl id buf).2 = .ok set := by
  cases e with
  | create =>
    rw [stepDir]
    split
    · exact .inl rfl
    case h_2 hc => exact .inr (.inl ⟨_, _, _, create_eq_ok h hc⟩)
  | remove =>
    rw [stepDir]
    split
    · exact .inl rfl
    case h_2 hr => exact .inr (.inr (.inl ⟨_, remove_eq_ok hr⟩))
  | write id buf =>
    cases hw : (t.writeSubtreeControl id buf).2 with
    | error => exact .inl (writeSubtreeControl_refused hw)
    | ok => exact .inr (.inr (.inr ⟨id, buf, _, rfl, hw⟩))

theorem Delegated.step (e : DirEvent) (h : t.Delegated) (hk : Kept t e) :
    (t.stepDir e).Delegated := by
  rcases stepDir_cases h.formed e with heq | ⟨_, _, _, hc⟩ | ⟨_, _, hr⟩ | ⟨_, _, _, rfl, hw⟩
  · rwa [heq]
  · exact h.created hc
  · exact h.removed hr
  · exact h.write hk hw

/-- The mounted hierarchy delegates nothing. -/
theorem mountRoot_delegated : empty.mountRoot.Delegated := by
  have hroot : ∀ {k n}, empty.mountRoot.nodes.get? k = some n → n = .new "" none ALL := by
    intro k n hn
    rw [CgWorld.mountRoot_get?] at hn
    split at hn
    · exact (Option.some.inj hn).symm
    · cases hn
  refine ⟨?_, fun k n hn i hi => ?_, fun k n p m hn hp => ?_⟩
  · exact (CgWorld.Start.inv (w := ⟨empty.mountRoot, .empty, [], [], [], false⟩)
      ⟨rfl, fun _ _ _ hu => (nomatch hu), rfl, rfl, rfl, rfl⟩).formed
  · rw [hroot hn] at hi
    simp [CgNode.new] at hi
  · rw [hroot hn] at hp
    cases hp

theorem Formed.step (e : DirEvent) (h : t.Formed) : (t.stepDir e).Formed := by
  rcases stepDir_cases h e with heq | ⟨_, _, _, hc⟩ | ⟨_, _, hr⟩ | ⟨_, _, _, rfl, hw⟩
  · rwa [heq]
  · exact hc.formed h
  · exact hr.formed h
  · obtain ⟨-, -, -, hid, hget⟩ := writeSubtreeControl_eq_ok h hw
    exact Keeps.formed (fun k => by rw [stepDir, hget, Option.map_map]; rfl) hid h

/-- **The hierarchy stays a tree under its root.** -/
theorem tree_run (events : List DirEvent) :
    let t := events.foldl stepDir empty.mountRoot
    t.Formed ∧ ∀ k n, t.nodes.get? k = some n → t.within ROOT k = true :=
  have h := Run.invariant (fun _ e h => h.step e) mountRoot_delegated.formed
  ⟨h, fun _ _ => within_root h⟩

end CgTree

end Oxide
