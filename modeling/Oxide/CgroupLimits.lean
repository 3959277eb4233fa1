/-
Hierarchical memory limits.

A charge is kept at the node it was made for, and tested against the limits of that node and of all
above before it is made. What counts below a node is the charges that were made there and not
returned, whatever the ledgers say.

* `CgWorld.Accounted`: the ledgers are the charges outstanding, and these are within the limits;
* `CgWorld.limits_hold`: in every run whose charges together fit in 64 bits, the limits hold, a
  refused charge changes nothing, no charge is lost or counted twice, and crossing a soft limit is
  reported;
* `CgWorld.failedVmalloc_loses`: a charge that does not fit, once returned, takes others with it.
-/
import Oxide.CgroupCoherent
import Oxide.CgroupSubtree

namespace Oxide

open List CgNode Charge

variable {t t' : CgTree} {bytes cgid i : ℕ} {c : ℕ × ℕ}

/-- The call makes or returns a charge. -/
def CgEvent.charging : CgEvent → Bool
  | .chargeMemory .. | .unchargeMemory _ | .chargeSwap .. | .unchargeSwap _ => true
  | _ => false

/-- Where and how much. -/
def Charge.place (c : Charge) : ℕ × ℕ := (c.cgid, c.bytes)

/-- What a node keeps for the memory controller. -/
def CgNode.books (n : CgNode) :
    BitVec 8 × Option ℕ × Option ℕ × Option ℕ × MemoryStats × ℕ :=
  (n.avail, n.memMax, n.memHigh, n.swapMax, n.memory, n.swapCurrent)

/-- The place of a node with its books. -/
def CgNode.account (n : CgNode) := (n.shape, n.books)

variable {n : CgNode}

namespace CgTree

variable {t t' : CgTree} {memory : List Charge} {k : ℕ}

/-! ### Ledgers by class -/

/-- The bytes of one class charged at a node. -/
def chargedKind (memory : List Charge) (k : ℕ) (kind : MemoryKind) : ℕ :=
  (memory.map fun c => (decide (c.cgid = k ∧ c.kind = kind)).toNat * c.bytes).sum

theorem chargedKind_cons (c : Charge) (kind : MemoryKind) :
    chargedKind (c :: memory) k kind =
      (decide (c.cgid = k ∧ c.kind = kind)).toNat * c.bytes + chargedKind memory k kind :=
  sum_cons

/-- The classes of a node together are its charges. -/
theorem sum_chargedKind (memory : List Charge) (k : ℕ) :
    (MemoryStats.kinds.map (chargedKind memory k)).sum = chargedAt (memory.map place) k := by
  induction memory with
  | nil => rfl
  | cons c memory ih =>
  have hone : (MemoryStats.kinds.map fun kind =>
      (decide (c.cgid = k ∧ c.kind = kind)).toNat * c.bytes).sum =
      (decide (c.cgid = k)).toNat * c.bytes := by
    by_cases hk : c.cgid = k
    · cases hkind : c.kind <;> simp [MemoryStats.kinds]
    · simp [hk]
  rw [map_cons, chargedAt_cons, ← ih]
  show _ = (decide (c.cgid = k)).toNat * c.bytes + _
  rw [← hone, ← sum_map_add]
  rfl

theorem chargedAt_le (charges : List (ℕ × ℕ)) (k : ℕ) : chargedAt charges k ≤ outstanding charges :=
  sum_selected_le ..

theorem chargedKind_le (memory : List Charge) (k : ℕ) (kind : MemoryKind) :
    chargedKind memory k kind ≤ outstanding (memory.map place) := by
  rw [outstanding, map_map]
  exact sum_selected_le ..

/-- Where nothing saturates, the total of a ledger is of the charges at the node. -/
theorem total_eq_chargedAt {m : MemoryStats} (hm : ∀ kind, m.get kind = chargedKind memory k kind)
    (hfit : outstanding (memory.map place) ≤ U64_MAX) :
    m.total = chargedAt (memory.map place) k := by
  have hsum := sum_chargedKind memory k
  have hget : m.get = chargedKind memory k := funext hm
  rw [MemoryStats.total, hget, foldl_map, foldl_satAdd, Nat.zero_add, hsum]
  rw [Nat.zero_add, hsum]
  exact (chargedAt_le _ k).trans hfit

/-- No charge is at a node whose charges sum to nothing. -/
theorem ne_of_chargedAt_eq_zero {charges : List (ℕ × ℕ)} (hpos : ∀ c ∈ charges, c.2 ≠ 0)
    (h : chargedAt charges k = 0) (hc : c ∈ charges) : c.1 ≠ k := by
  intro hk
  have hterm := sum_eq_zero_iff.mp h _ (mem_map_of_mem hc)
  rw [decide_eq_true hk, Bool.toNat_true, Nat.one_mul] at hterm
  exact hpos c hc hterm

/-- The charges of one kind are to nodes that are there, fit in 64 bits together, and are within
their limits. -/
structure Charged (t : CgTree) (limit : CgNode → Option ℕ) (charges : List (ℕ × ℕ)) : Prop where
  live : t.Live charges
  pos : ∀ c ∈ charges, c.2 ≠ 0
  fit : outstanding charges ≤ U64_MAX
  max : ∀ a n max, t.nodes.get? a = some n → limit n = some max → t.chargedUnder charges a ≤ max

namespace Charged

variable {limit : CgNode → Option ℕ} {charges : List (ℕ × ℕ)} (h : t.Charged limit charges)
include h

/-- Another tree with the charges at the same places. -/
theorem of_tree (hlive : t'.Live charges ∧ ∀ c ∈ charges, ∀ a, t'.within a c.1 = t.within a c.1)
    (hlimit : ∀ a n' max, t'.nodes.get? a = some n' → limit n' = some max →
      ∃ n, t.nodes.get? a = some n ∧ limit n = some max) : t'.Charged limit charges := by
  refine ⟨hlive.1, h.pos, h.fit, fun a n' max hn' hmax => ?_⟩
  obtain ⟨n, hn, hmax⟩ := hlimit a n' max hn' hmax
  rw [chargedUnder_congr fun c hc => hlive.2 c hc a]
  exact h.max a n max hn hmax

/-- A charge that passed the test of every node above. -/
theorem cons (hn : t.nodes.get? cgid = some n) (hpos : bytes ≠ 0)
    (hfit : outstanding charges + bytes ≤ U64_MAX)
    (htest : ∀ a n max, t.nodes.get? a = some n → limit n = some max → (a, n) ∈ t.path cgid →
      t.chargedUnder charges a + bytes ≤ max) : t.Charged limit ((cgid, bytes) :: charges) := by
  refine ⟨forall_mem_cons.mpr ⟨⟨n, hn⟩, h.live⟩, forall_mem_cons.mpr ⟨hpos, h.pos⟩, ?_,
    fun a m max hm hmax => ?_⟩
  · rwa [outstanding_cons, Nat.add_comm]
  rw [chargedUnder_cons]
  cases hw : t.within a cgid with
  | false =>
    rw [Bool.toNat_false, Nat.zero_mul, Nat.zero_add]
    exact h.max a m max hm hmax
  | true =>
  obtain ⟨m', hmem, hm'⟩ := get?_of_within hw
  cases hm.symm.trans hm'
  rw [Bool.toNat_true, Nat.one_mul, Nat.add_comm]
  exact htest a m max hm hmax hmem

/-- A charge taken out of the list was one summand of every sum. -/
theorem of_perm {rest : List (ℕ × ℕ)} (hp : (c :: rest).Perm charges) : t.Charged limit rest := by
  have hsub : ∀ d ∈ rest, d ∈ charges := fun d hd => hp.subset (mem_cons_of_mem _ hd)
  have hsum : outstanding (c :: rest) = outstanding charges := (hp.map _).sum_eq
  refine ⟨fun d hd => h.live d (hsub d hd), fun d hd => h.pos d (hsub d hd), ?_,
    fun a n max hn hmax => ?_⟩
  · have hfit := h.fit
    rw [← hsum] at hfit
    exact (Nat.le_add_left _ _).trans hfit
  have hunder : t.chargedUnder (c :: rest) a = t.chargedUnder charges a := (hp.map _).sum_eq
  have hle := h.max a n max hn hmax
  rw [← hunder] at hle
  exact (Nat.le_add_left _ _).trans hle

end Charged

end CgTree

namespace CgWorld

open CgTree

variable {w : CgWorld}

/-! ### The invariant -/

/-- The memory charges outstanding. -/
def charges (w : CgWorld) : List (ℕ × ℕ) := w.memory.map place

/-- **The ledgers are the charges outstanding**, which fit in 64 bits, and these are within the
limits.  The controller is available where a limit is set. -/
structure Accounted (w : CgWorld) : Prop where
  formed : w.tree.Formed
  available : ∀ k n, w.tree.nodes.get? k = some n →
    n.memMax.isSome ∨ n.memHigh.isSome ∨ n.swapMax.isSome → n.avail &&& MEMORY ≠ 0
  memory : ∀ k n, w.tree.nodes.get? k = some n →
    ∀ kind, n.memory.get kind = chargedKind w.memory k kind
  swap : ∀ k n, w.tree.nodes.get? k = some n → n.swapCurrent = chargedAt w.swap k
  memoryCharged : w.tree.Charged memMax w.charges
  swapCharged : w.tree.Charged CgNode.swapMax w.swap

section

variable (h : Accounted w)

include h

theorem Accounted.subtreeMem (a : ℕ) : w.tree.subtreeMem a = w.tree.chargedUnder w.charges a :=
  subtreeSum_eq h.formed h.memoryCharged.live
    (fun k n hn => total_eq_chargedAt (h.memory k n hn) h.memoryCharged.fit) h.memoryCharged.fit
    (Nat.le_add_left _ _)

theorem Accounted.subtreeSwap (a : ℕ) : w.tree.subtreeSwap a = w.tree.chargedUnder w.swap a :=
  subtreeSum_eq h.formed h.swapCharged.live h.swap h.swapCharged.fit (Nat.le_add_left _ _)

/-- Calls that leave the books of nodes alone, and may bring new nodes or take old ones away. -/
theorem Accounted.of_tree (hf : t'.Formed)
    (hold : Stems books w.tree t')
    (hlive : ∀ charges, charges = w.charges ∨ charges = w.swap → t'.Live charges ∧
      ∀ c ∈ charges, ∀ a, t'.within a c.1 = w.tree.within a c.1)
    (tasks : OrdMap ℕ ℕ) (prepared : List PreparedFork) (panicked : Bool) :
    Accounted ⟨t', tasks, prepared, w.memory, w.swap, panicked⟩ := by
  have hbooks : ∀ limit : CgNode → Option ℕ, (∀ n n', n'.books = n.books → limit n' = limit n) →
      (∀ name p avail, limit (.new name p avail) = none) → ∀ a n' max,
      t'.nodes.get? a = some n' → limit n' = some max →
        ∃ n, w.tree.nodes.get? a = some n ∧ limit n = some max := by
    intro limit hlimit hnone a n' max hn' hmax
    rcases hold a n' hn' with ⟨n, hn, hb⟩ | ⟨-, name, p, avail, rfl⟩
    · exact ⟨n, hn, hlimit n n' hb ▸ hmax⟩
    · simp [hnone] at hmax
  have hm := h.memoryCharged.of_tree (hlive w.charges (.inl rfl))
    (hbooks _ (fun _ _ hb => (Prod.mk.inj (Prod.mk.inj hb).2).1) fun _ _ _ => rfl)
  have hs := h.swapCharged.of_tree (hlive w.swap (.inr rfl)) (hbooks _
    (fun _ _ hb => (Prod.mk.inj (Prod.mk.inj (Prod.mk.inj (Prod.mk.inj hb).2).2).2).1)
    fun _ _ _ => rfl)
  -- nothing is charged to a new node
  have hnew : ∀ {k}, w.tree.nodes.get? k = none →
      (∀ c ∈ w.memory, c.cgid ≠ k) ∧ ∀ c ∈ w.swap, c.1 ≠ k := by
    intro k hk
    constructor
    · rintro c hc rfl
      obtain ⟨n, hn⟩ := h.memoryCharged.live c.place (mem_map_of_mem hc)
      exact absurd (hk.symm.trans hn) nofun
    · rintro c hc rfl
      obtain ⟨n, hn⟩ := h.swapCharged.live c hc
      exact absurd (hk.symm.trans hn) nofun
  constructor
  · exact hf
  · intro k n' hn' hlim
    rcases hold k n' hn' with ⟨n, hn, hb⟩ | ⟨-, name, p, avail, rfl⟩
    · simp only [books, Prod.mk.injEq] at hb
      obtain ⟨ha, hm, hh, hs, -⟩ := hb
      rw [hm, hh, hs] at hlim
      rw [ha]
      exact h.available k n hn hlim
    · rcases hlim with hlim | hlim | hlim <;> cases hlim
  · intro k n' hn' kind
    rcases hold k n' hn' with ⟨n, hn, hb⟩ | ⟨hk, name, p, avail, rfl⟩
    · simp only [books, Prod.mk.injEq] at hb
      rw [hb.2.2.2.2.1]
      exact h.memory k n hn kind
    · exact (sum_selected_eq_zero _ _ _ fun c hc =>
        decide_eq_false fun hh => (hnew hk).1 c hc hh.1).symm
  · intro k n' hn'
    rcases hold k n' hn' with ⟨n, hn, hb⟩ | ⟨hk, name, p, avail, rfl⟩
    · simp only [books, Prod.mk.injEq] at hb
      rw [hb.2.2.2.2.2]
      exact h.swap k n hn
    · exact (sum_selected_eq_zero _ _ _ fun c hc => decide_eq_false ((hnew hk).2 c hc)).symm
  · exact hm
  · exact hs

/-- A change that keeps the parents of the nodes with charges, and of those above, keeps what is
above charges. -/
theorem Accounted.live_transport (hf : t'.Formed) (P : ℕ → Prop)
    (hup : ∀ k n p, P k → w.tree.nodes.get? k = some n → n.parent = some p → P p)
    (hkeep : ∀ k n, P k → w.tree.nodes.get? k = some n →
      ∃ n', t'.nodes.get? k = some n' ∧ n'.parent = n.parent)
    {charges : List (ℕ × ℕ)} (hl : w.tree.Live charges) (hP : ∀ c ∈ charges, P c.1) :
    t'.Live charges ∧ ∀ c ∈ charges, ∀ a, t'.within a c.1 = w.tree.within a c.1 := by
  refine ⟨fun c hc => ?_, fun c hc a => ?_⟩
  · obtain ⟨n, hn⟩ := hl c hc
    exact (hkeep c.1 n (hP c hc) hn).imp fun _ => And.left
  · obtain ⟨n, hn⟩ := hl c hc
    exact within_transport h.formed hf hup hkeep (hP c hc) hn

/-- A change that keeps the place of every node keeps what is above charges. -/
theorem Accounted.within_of_keeps (hk : Keeps shape w.tree t')
    (hf : t'.Formed) {charges : List (ℕ × ℕ)} (hl : w.tree.Live charges) : t'.Live charges ∧
      ∀ c ∈ charges, ∀ a, t'.within a c.1 = w.tree.within a c.1 := by
  refine h.live_transport hf (fun _ => True) (fun _ _ _ _ _ _ => trivial) (fun k n _ hn => ?_) hl
    fun _ _ => trivial
  obtain ⟨n', hn', heq⟩ := hk.get?' hn
  exact ⟨n', hn', (Prod.mk.inj (Prod.mk.inj heq).2).1⟩

end

/-! ### Tasks, forks and directories -/

/-- What calls for tasks and forks leave alone. -/
structure Aside (w w' : CgWorld) : Prop where
  nodes : Keeps account w.tree w'.tree
  nextId : w'.tree.nextId = w.tree.nextId
  memory : w'.memory = w.memory
  swap : w'.swap = w.swap

variable {w' : CgWorld}

theorem Aside.lists (h : Aside w w') : w'.memory = w.memory ∧ w'.swap = w.swap :=
  ⟨h.memory, h.swap⟩

theorem Aside.refl (w : CgWorld) : Aside w w := ⟨Keeps.refl _ _, rfl, rfl, rfl⟩

theorem Accounted.aside (h : Accounted w) (ha : Aside w w') : Accounted w' := by
  obtain ⟨t', tasks, prepared, memory, swap, panicked⟩ := w'
  obtain ⟨hk, hid, rfl, rfl⟩ := ha
  have hshape : Keeps shape w.tree t' := hk.proj Prod.fst fun _ => rfl
  have hf := hshape.formed hid h.formed
  have hbooks : Keeps books w.tree t' := hk.proj Prod.snd fun _ => rfl
  refine h.of_tree hf hbooks.stems (fun charges hc => ?_) tasks prepared panicked
  rcases hc with rfl | rfl
  · exact h.within_of_keeps hshape hf h.memoryCharged.live
  · exact h.within_of_keeps hshape hf h.swapCharged.live

theorem aside_of_forks (hf : Frame withoutForks w.tree t') (tasks : OrdMap ℕ ℕ)
    (prepared : List PreparedFork) (panicked : Bool) :
    Aside w ⟨t', tasks, prepared, w.memory, w.swap, panicked⟩ :=
  ⟨hf.nodes.proj account fun _ => rfl, hf.nextId, rfl, rfl⟩

theorem aside_of_frame (hf : TaskFrame w.tree t') (tasks : OrdMap ℕ ℕ)
    (prepared : List PreparedFork) (panicked : Bool) :
    Aside w ⟨t', tasks, prepared, w.memory, w.swap, panicked⟩ :=
  ⟨hf.nodes.proj account fun _ => rfl, hf.nextId, rfl, rfl⟩

section

variable (w : CgWorld)

theorem aside_addProc (cgid pid : ℕ) : Aside w (w.onAddProc cgid pid) := by
  unfold onAddProc
  split
  · cases hok : w.tree.addProc cgid pid with
    | error => exact Aside.refl w
    | ok => exact aside_of_frame (addProc_frame hok) _ _ _
  · exact Aside.refl w

theorem aside_addThread (parent tid : ℕ) : Aside w (w.onAddThread parent tid) := by
  unfold onAddThread
  split
  · split
    · exact Aside.refl w
    refine aside_of_frame ?_ _ _ _
    unfold addThread
    split
    · exact TaskFrame.refl w.tree
    · exact (recordThread_reseats ..).task
  · exact Aside.refl w

theorem aside_prepare (target : Option ℕ) (parent : ℕ) (thread : Bool) :
    Aside w (w.onPrepare target parent thread) := by
  unfold onPrepare
  split
  · exact Aside.refl w
  dsimp only
  split
  · exact Aside.refl w
  split
  · exact Aside.refl w
  rename_i t' hok
  unfold prepareFork at hok
  split at hok
  · cases hok
    exact ⟨Keeps.refl _ _, rfl, rfl, rfl⟩
  split at hok
  · cases hok
  split at hok
  · cases hok
  · cases hok
    exact aside_of_forks (holdFork_frame ..) w.tasks _ _

theorem aside_cancel (i : ℕ) : Aside w (w.onCancel i) := by
  unfold onCancel
  split
  · exact Aside.refl w
  rename_i f hf
  unfold cancelFork
  split
  · exact ⟨Keeps.refl _ _, rfl, rfl, rfl⟩
  case h_2 t' hok =>
    split at hok
    · cases hok
      exact ⟨Keeps.refl _ _, rfl, rfl, rfl⟩
    split at hok
    · cases hok
      exact aside_of_forks (releaseFork_frame ..) w.tasks _ _
    · cases hok

theorem aside_commit (i child : ℕ) : Aside w (w.onCommit i child) := by
  unfold onCommit
  split
  · exact Aside.refl w
  rename_i f hf
  split
  · split
    · exact ⟨Keeps.refl _ _, rfl, rfl, rfl⟩
    case h_2 t' r hok =>
      unfold commitFork at hok
      split at hok
      · cases hok
        exact ⟨Keeps.refl _ _, rfl, rfl, rfl⟩
      split at hok
      · cases hok
      obtain ⟨t1, hjoin, heq⟩ := Option.map_eq_some_iff.mp hok
      cases heq
      have hfr := releaseFork_frame t1 f.cgid
      have hframe : TaskFrame w.tree t1 := by
        split at hjoin
        · cases hjoin
          unfold addThreadInto
          split
          · exact TaskFrame.refl w.tree
          · exact (recordThread_reseats ..).task
        cases hadd : w.tree.addProc f.cgid child with
        | error =>
          rw [hadd] at hjoin
          cases hjoin
        | ok =>
        rw [hadd] at hjoin
        cases hjoin
        exact addProc_frame hadd
      exact ⟨(hframe.nodes.proj account fun _ => rfl).trans
        (hfr.nodes.proj account fun _ => rfl), hfr.nextId.trans hframe.nextId, rfl, rfl⟩
  · exact Aside.refl w

theorem aside_exit (tid : ℕ) : Aside w (w.onExit tid) := by
  unfold onExit
  split
  · split
    · exact Aside.refl w
    · exact aside_of_frame (exitTask_frame ..) _ _ _
  · exact Aside.refl w

end

section

variable (h : Accounted w)

include h

theorem Accounted.create {parent id : ℕ} {name : String}
    (hc : Created w.tree t' parent name id) : Accounted { w with tree := t' } := by
  have hlive : ∀ {charges}, w.tree.Live charges → t'.Live charges ∧
      ∀ c ∈ charges, ∀ a, t'.within a c.1 = w.tree.within a c.1 := by
    intro charges hl
    refine h.live_transport (hc.formed h.formed) (fun _ => True) (fun _ _ _ _ _ _ => trivial)
      (fun k n _ hn => ?_) hl fun _ _ => trivial
    obtain ⟨-, n', hn', heq, -⟩ := hc.get?' h.formed hn
    refine ⟨n', hn', ?_⟩
    rw [heq]
  refine h.of_tree (hc.formed h.formed) (hc.stems h.formed fun _ _ => rfl) (fun charges hch => ?_)
    _ _ _
  rcases hch with rfl | rfl
  · exact hlive h.memoryCharged.live
  · exact hlive h.swapCharged.live

/-- A removed directory has no charge, and is above no other. -/
theorem Accounted.remove {id : ℕ} (hr : Removed w.tree t' id n) :
    Accounted { w with tree := t' } := by
  obtain ⟨-, -, -, hmem, hswap⟩ := idle_of_not_busy hr.idle
  rw [total_eq_chargedAt (h.memory id n hr.there) h.memoryCharged.fit] at hmem
  rw [h.swap id n hr.there] at hswap
  have hkeep : ∀ k m, k ≠ id → w.tree.nodes.get? k = some m →
      ∃ m', t'.nodes.get? k = some m' ∧ m'.parent = m.parent := by
    intro k m hk hm
    obtain ⟨m', hm', heq, -⟩ := hr.other k hk m hm
    refine ⟨m', hm', ?_⟩
    rw [heq]
  have hup : ∀ k m p, k ≠ id → w.tree.nodes.get? k = some m → m.parent = some p → p ≠ id := by
    rintro k m p - hm hp rfl
    obtain ⟨-, n', hn', hch⟩ := h.formed.parent k m p hm hp
    cases hr.there.symm.trans hn'
    simp [hr.childless] at hch
  have hlive : ∀ {charges}, w.tree.Live charges → (∀ c ∈ charges, c.2 ≠ 0) →
      chargedAt charges id = 0 → t'.Live charges ∧
      ∀ c ∈ charges, ∀ a, t'.within a c.1 = w.tree.within a c.1 := by
    intro charges hl hpos hzero
    exact h.live_transport (hr.formed h.formed) (· ≠ id) hup hkeep hl
      fun c hc => ne_of_chargedAt_eq_zero hpos hzero hc
  refine h.of_tree (hr.formed h.formed) (hr.stems fun _ _ => rfl) (fun charges hch => ?_) _ _ _
  rcases hch with rfl | rfl
  · exact hlive h.memoryCharged.live h.memoryCharged.pos hmem
  · exact hlive h.swapCharged.live h.swapCharged.pos hswap

/-! ### Charges -/

/-- The ledgers and the charges outstanding change together. -/
theorem Accounted.of_ledger (hl : LedgerFrame w.tree t')
    {memory : List Charge} {swap : List (ℕ × ℕ)}
    (hmem : ∀ k n', t'.nodes.get? k = some n' →
      ∀ kind, n'.memory.get kind = chargedKind memory k kind)
    (hswap : ∀ k n', t'.nodes.get? k = some n' → n'.swapCurrent = chargedAt swap k)
    (hm : w.tree.Charged CgNode.memMax (memory.map place))
    (hs : w.tree.Charged CgNode.swapMax swap) :
    Accounted ⟨t', w.tasks, w.prepared, memory, swap, w.panicked⟩ := by
  have hshape : Keeps shape w.tree t' := hl.nodes.proj shape fun _ => rfl
  have hf := hshape.formed hl.nextId h.formed
  have hlimits : ∀ {k n'}, t'.nodes.get? k = some n' → ∃ n, w.tree.nodes.get? k = some n ∧
      n'.avail = n.avail ∧ n'.memMax = n.memMax ∧ n'.memHigh = n.memHigh ∧
      n'.swapMax = n.swapMax := by
    intro k n' hn'
    obtain ⟨n, hn, heq⟩ := (hl.nodes.proj (fun n => (n.avail, n.memMax, n.memHigh, n.swapMax))
      fun _ => rfl).get? hn'
    simp only [Prod.mk.injEq] at heq
    exact ⟨n, hn, heq⟩
  have hm := hm.of_tree (h.within_of_keeps hshape hf hm.live) fun a n' max hn' hmax => by
    obtain ⟨n, hn, -, heq, -⟩ := hlimits hn'
    exact ⟨n, hn, heq ▸ hmax⟩
  have hs := hs.of_tree (h.within_of_keeps hshape hf hs.live) fun a n' max hn' hmax => by
    obtain ⟨n, hn, -, -, -, heq⟩ := hlimits hn'
    exact ⟨n, hn, heq ▸ hmax⟩
  constructor
  · exact hf
  · intro k n' hn' hlim
    obtain ⟨n, hn, ha, hm, hh, hs⟩ := hlimits hn'
    rw [hm, hh, hs] at hlim
    rw [ha]
    exact h.available k n hn hlim
  · exact hmem
  · exact hswap
  · exact hm
  · exact hs

theorem Accounted.swap_of_keeps (hk : Keeps swapCurrent w.tree t') (k : ℕ)
    (n' : CgNode) (hn' : t'.nodes.get? k = some n') : n'.swapCurrent = chargedAt w.swap k := by
  obtain ⟨n, hn, heq⟩ := hk.get? hn'
  rw [heq]
  exact h.swap k n hn

theorem Accounted.memory_of_keeps (hk : Keeps CgNode.memory w.tree t') (k : ℕ)
    (n' : CgNode) (hn' : t'.nodes.get? k = some n') (kind : MemoryKind) :
    n'.memory.get kind = chargedKind w.memory k kind := by
  obtain ⟨n, hn, heq⟩ := hk.get? hn'
  rw [heq]
  exact h.memory k n hn kind

theorem Accounted.chargedMemory (kind : MemoryKind) (hn : w.tree.nodes.get? cgid = some n)
    (hpos : bytes ≠ 0) (hfit : outstanding w.charges + bytes ≤ U64_MAX)
    (hpass : (w.tree.path cgid).find? (w.tree.overMax bytes) = none) :
    Accounted { w with
      tree := w.tree.addMemory cgid kind bytes
      memory := ⟨cgid, kind, bytes⟩ :: w.memory } := by
  refine h.of_ledger (addMemory_frame w.tree cgid kind bytes)
    (fun k n' hn' kind' => ?_) (h.swap_of_keeps (Keeps.modify cgid fun _ => rfl))
    (h.memoryCharged.cons hn hpos hfit fun a m max hm hmax hmem => ?_) h.swapCharged
  · rw [chargedKind_cons]
    unfold addMemory at hn'
    rw [modify_get?] at hn'
    split_ifs at hn' with hk
    · obtain ⟨m, hm, rfl⟩ := Option.map_eq_some_iff.mp hn'
      have hget := h.memory k m hm
      show Function.update m.memory.get kind _ kind' = _
      rw [Function.update_apply]
      split
      case isTrue hkind =>
        have hle := chargedKind_le w.memory k kind
        rw [selected_pos ⟨hk.symm, hkind.symm⟩, hget, satAdd_eq, hkind, Nat.add_comm]
        exact le_trans (Nat.add_le_add_right hle bytes) hfit
      case isFalse hkind =>
        rw [selected_neg fun hh => hkind hh.2.symm]
        exact hget kind'
    rw [selected_neg fun hh => hk hh.1.symm]
    exact h.memory k n' hn' kind'
  -- the node was on the walk that tested the charge
  have htest := List.find?_eq_none.mp hpass _ hmem
  have havail := h.available a m hm (.inl (by rw [hmax]; rfl))
  unfold overMax at htest
  rw [decide_eq_true_iff, hmax, Option.any_some, decide_eq_true_iff, not_and, not_lt] at htest
  have hle := htest havail
  rw [h.subtreeMem, satAdd_eq] at hle
  · exact hle
  · exact le_trans (Nat.add_le_add_right (chargedUnder_le ..) _) hfit

theorem Accounted.chargedSwap (hn : w.tree.nodes.get? cgid = some n)
    (hpos : bytes ≠ 0) (hfit : outstanding w.swap + bytes ≤ U64_MAX)
    (hpass : (w.tree.path cgid).any (w.tree.overSwap bytes) = false) :
    Accounted { w with
      tree := w.tree.addSwap cgid bytes
      swap := (cgid, bytes) :: w.swap } := by
  -- no sum of charges wraps
  have hmod : ∀ {s}, s ≤ outstanding w.swap → (s + bytes) % 2 ^ 64 = s + bytes := by
    unfold U64_MAX at hfit
    omega
  refine h.of_ledger (addSwap_frame w.tree cgid bytes)
    (h.memory_of_keeps (Keeps.modify cgid fun _ => rfl)) (fun k n' hn' => ?_) h.memoryCharged
    (h.swapCharged.cons hn hpos hfit fun a m max hm hmax hmem => ?_)
  · rw [chargedAt_cons]
    unfold addSwap at hn'
    rw [modify_get?] at hn'
    split_ifs at hn' with hk
    · obtain ⟨m, hm, rfl⟩ := Option.map_eq_some_iff.mp hn'
      rw [selected_pos hk.symm, h.swap k m hm, hmod (chargedAt_le _ _), Nat.add_comm]
    rw [selected_neg (Ne.symm hk)]
    exact h.swap k n' hn'
  have htest := any_eq_false.mp hpass _ hmem
  have havail := h.available a m hm (.inr (.inr (by rw [hmax]; rfl)))
  unfold overSwap at htest
  rw [decide_eq_true_iff, hmax, Option.any_some, decide_eq_true_iff, not_and, not_lt] at htest
  have hle := htest havail
  rwa [h.subtreeSwap, hmod (chargedUnder_le ..)] at hle

theorem Accounted.unchargedMemory {c : Charge} (hc : w.memory[i]? = some c) :
    Accounted { w with
      tree := w.tree.unchargeMemory c.cgid c.kind c.bytes
      memory := w.memory.eraseIdx i } := by
  obtain ⟨hi, rfl⟩ := List.getElem?_eq_some_iff.mp hc
  generalize hce : w.memory[i] = c at hc ⊢
  have hperm : (c :: w.memory.eraseIdx i).Perm w.memory := hce ▸ getElem_cons_eraseIdx_perm hi
  have hplace : (c.place :: (w.memory.eraseIdx i).map place).Perm w.charges :=
    hperm.map place
  have hpos : c.bytes ≠ 0 := h.memoryCharged.pos c.place (hplace.subset mem_cons_self)
  refine h.of_ledger (unchargeMemory_frame w.tree c.cgid c.kind c.bytes)
    (fun k n' hn' kind => ?_) (h.swap_of_keeps ?_) (h.memoryCharged.of_perm hplace) h.swapCharged
  · have hsum : chargedKind (c :: w.memory.eraseIdx i) k kind = chargedKind w.memory k kind :=
      (hperm.map _).sum_eq
    rw [chargedKind_cons] at hsum
    unfold CgTree.unchargeMemory at hn'
    rw [if_neg hpos, modify_get?] at hn'
    split_ifs at hn' with hk
    · obtain ⟨m, hm, rfl⟩ := Option.map_eq_some_iff.mp hn'
      have hget := h.memory k m hm kind
      show Function.update m.memory.get c.kind _ kind = _
      rw [Function.update_apply]
      split
      case isTrue hkind =>
        rw [selected_pos ⟨hk.symm, hkind.symm⟩] at hsum
        rw [← hkind]
        omega
      case isFalse hkind =>
        rw [selected_neg fun hh => hkind hh.2.symm] at hsum
        rw [hget, hsum]
    rw [selected_neg fun hh => hk hh.1.symm] at hsum
    rw [h.memory k n' hn' kind, hsum]
  · rw [CgTree.unchargeMemory, if_neg hpos]
    exact Keeps.modify c.cgid fun _ => rfl

theorem Accounted.unchargedSwap (hc : w.swap[i]? = some c) :
    Accounted { w with
      tree := w.tree.unchargeSwap c.1 c.2
      swap := w.swap.eraseIdx i } := by
  obtain ⟨hi, rfl⟩ := List.getElem?_eq_some_iff.mp hc
  generalize hce : w.swap[i] = c at hc ⊢
  have hperm : (c :: w.swap.eraseIdx i).Perm w.swap := hce ▸ getElem_cons_eraseIdx_perm hi
  have hpos : c.2 ≠ 0 := h.swapCharged.pos c (hperm.subset mem_cons_self)
  refine h.of_ledger (unchargeSwap_frame w.tree c.1 c.2)
    (h.memory_of_keeps ?_) (fun k n' hn' => ?_) h.memoryCharged (h.swapCharged.of_perm hperm)
  · rw [CgTree.unchargeSwap, if_neg hpos]
    exact Keeps.modify c.1 fun _ => rfl
  have hsum : chargedAt (c :: w.swap.eraseIdx i) k = chargedAt w.swap k := (hperm.map _).sum_eq
  rw [chargedAt_cons] at hsum
  unfold CgTree.unchargeSwap at hn'
  rw [if_neg hpos, modify_get?] at hn'
  split_ifs at hn' with hk
  · obtain ⟨m, hm, rfl⟩ := Option.map_eq_some_iff.mp hn'
    rw [selected_pos hk.symm] at hsum
    show m.swapCurrent - c.2 = _
    rw [h.swap k m hm]
    omega
  rw [selected_neg (Ne.symm hk)] at hsum
  rw [h.swap k n' hn', hsum]

end

/-- The bytes of the charge and those outstanding fit in 64 bits together. -/
def Fits (w : CgWorld) : CgEvent → Prop
  | .chargeMemory _ _ bytes => outstanding w.charges + bytes.toNat ≤ U64_MAX
  | .chargeSwap _ bytes => outstanding w.swap + bytes.toNat ≤ U64_MAX
  | _ => True

/-- What became of a memory charge, in the four ways it can go. -/
theorem onChargeMemory_cases (w : CgWorld) (cgid : ℕ) (kind : MemoryKind) (bytes : ℕ) :
    (bytes = 0 ∧ (w.tree.tryChargeMemoryTransition cgid kind bytes).2 = .charged false ∧
      w.onChargeMemory cgid kind bytes = w) ∨
    ((∃ l, (w.tree.tryChargeMemoryTransition cgid kind bytes).2 = .max l) ∧
      Aside w (w.onChargeMemory cgid kind bytes)) ∨
    (bytes ≠ 0 ∧ (∃ n, w.tree.nodes.get? cgid = some n) ∧
      (w.tree.path cgid).find? (w.tree.overMax bytes) = none ∧
      (w.tree.tryChargeMemoryTransition cgid kind bytes).2 =
        .charged ((w.tree.path cgid).any (w.tree.crossesHigh bytes)) ∧
      w.onChargeMemory cgid kind bytes = { w with
        tree := w.tree.addMemory cgid kind bytes
        memory := ⟨cgid, kind, bytes⟩ :: w.memory }) := by
  unfold onChargeMemory tryChargeMemoryTransition
  split_ifs with hzero hnone
  · exact .inl ⟨hzero, rfl, rfl⟩
  · exact .inr (.inl ⟨⟨cgid, rfl⟩, Aside.refl w⟩)
  have hthere : ∃ n, w.tree.nodes.get? cgid = some n :=
    Option.ne_none_iff_exists'.mp fun hno => hnone (by rw [hno]; rfl)
  cases hfind : (w.tree.path cgid).find? (w.tree.overMax bytes) with
  | some p =>
    have hfr := Frame.modify (F := account) w.tree cgid
      (f := fun n => { n with maxEvents := satAdd n.maxEvents 1 }) fun _ => rfl
    exact .inr (.inl ⟨⟨p.1, rfl⟩, hfr.nodes, hfr.nextId, rfl, rfl⟩)
  | none => exact .inr (.inr ⟨hzero, hthere, rfl, rfl, rfl⟩)

theorem onChargeSwap_cases (w : CgWorld) (cgid bytes : ℕ) :
    w.onChargeSwap cgid bytes = w ∨
    (bytes ≠ 0 ∧ (∃ n, w.tree.nodes.get? cgid = some n) ∧
      (w.tree.path cgid).any (w.tree.overSwap bytes) = false ∧
      (w.tree.tryChargeSwap cgid bytes).2 = true ∧
      w.onChargeSwap cgid bytes = { w with
        tree := w.tree.addSwap cgid bytes
        swap := (cgid, bytes) :: w.swap }) := by
  unfold onChargeSwap tryChargeSwap
  split_ifs with hzero hnone hover
  · exact .inl rfl
  · exact .inl rfl
  · exact .inl rfl
  · refine .inr ⟨hzero, ?_, Bool.eq_false_iff.mpr hover, rfl, rfl⟩
    exact Option.ne_none_iff_exists'.mp fun hno => hnone (by rw [hno]; rfl)

variable {e : CgEvent}

theorem Accounted.step (h : Accounted w) (hfit : w.Fits e) : Accounted (w.step e) := by
  cases e <;> dsimp only [CgWorld.step]
  case create parent name =>
    cases hok : w.tree.create parent name with
    | error => exact h
    | ok => exact h.create (create_eq_ok h.formed hok)
  case remove id =>
    cases hok : w.tree.remove id with
    | error => exact h
    | ok =>
      obtain ⟨n, hr⟩ := remove_eq_ok hok
      exact h.remove hr
  case addProc => exact h.aside (aside_addProc ..)
  case addThread => exact h.aside (aside_addThread ..)
  case prepare => exact h.aside (aside_prepare ..)
  case commit => exact h.aside (aside_commit ..)
  case cancel => exact h.aside (aside_cancel ..)
  case exit => exact h.aside (aside_exit ..)
  case chargeMemory cgid kind bytes =>
    rcases onChargeMemory_cases w cgid kind bytes.toNat with
      ⟨-, -, heq⟩ | ⟨-, ha⟩ | ⟨hpos, ⟨n, hn⟩, hpass, -, heq⟩
    · rwa [heq]
    · exact h.aside ha
    · rw [heq]
      exact h.chargedMemory kind hn hpos hfit hpass
  case unchargeMemory =>
    unfold onUnchargeMemory
    split
    · exact h
    case h_2 c hc => exact h.unchargedMemory hc
  case chargeSwap cgid bytes =>
    rcases onChargeSwap_cases w cgid bytes.toNat with heq | ⟨hpos, ⟨n, hn⟩, hpass, -, heq⟩
    · rwa [heq]
    · rw [heq]
      exact h.chargedSwap hn hpos hfit hpass
  unfold onUnchargeSwap
  split
  · exact h
  case h_2 c hc => exact h.unchargedSwap hc

/-! ### What limits are to be -/

/-- **The limits hold and nothing is lost.** What is charged below a node is within its limits; what
the hierarchy reports for a node is what is charged below it, and for the root everything
outstanding. -/
structure Bounded (w : CgWorld) : Prop where
  memoryMax : ∀ a n max, w.tree.nodes.get? a = some n → n.memMax = some max →
    w.tree.chargedUnder w.charges a ≤ max
  swapMax : ∀ a n max, w.tree.nodes.get? a = some n → n.swapMax = some max →
    w.tree.chargedUnder w.swap a ≤ max
  memoryCurrent : ∀ a, w.tree.subtreeMem a = w.tree.chargedUnder w.charges a
  swapCurrent : ∀ a, w.tree.subtreeSwap a = w.tree.chargedUnder w.swap a
  memoryRoot : w.tree.subtreeMem ROOT = outstanding w.charges
  swapRoot : w.tree.subtreeSwap ROOT = outstanding w.swap

theorem Accounted.bounded (h : Accounted w) : Bounded w :=
  ⟨h.memoryCharged.max, h.swapCharged.max, h.subtreeMem, h.subtreeSwap,
    (h.subtreeMem ROOT).trans (chargedUnder_root h.formed h.memoryCharged.live),
    (h.subtreeSwap ROOT).trans (chargedUnder_root h.formed h.swapCharged.live)⟩

/-- The ledgers of all nodes, and the charges outstanding, are what they were. -/
structure SameLedgers (w w' : CgWorld) : Prop where
  nodes : Keeps (fun n => (n.memory, n.swapCurrent)) w.tree w'.tree
  memory : w'.memory = w.memory
  swap : w'.swap = w.swap

/-- Some node that the charge counts for goes from its soft limit or below to above it. -/
def CrossesHigh (w w' : CgWorld) (cgid : ℕ) : Prop :=
  ∃ a n high, w.tree.within a cgid = true ∧ w.tree.nodes.get? a = some n ∧ n.memHigh = some high ∧
    w.tree.chargedUnder w.charges a ≤ high ∧ high < w'.tree.chargedUnder w'.charges a

/-- What a call has to observe: a refused charge changes no ledger, crossing a soft limit is
reported exactly when it happens, and calls that make no charge keep the totals. -/
structure Settled (w : CgWorld) (e : CgEvent) : Prop where
  refused : ∀ cgid kind bytes l, e = .chargeMemory cgid kind bytes →
    (w.tree.tryChargeMemoryTransition cgid kind bytes.toNat).2 = .max l → SameLedgers w (w.step e)
  refusedSwap : ∀ cgid bytes, e = .chargeSwap cgid bytes →
    (w.tree.tryChargeSwap cgid bytes.toNat).2 = false → SameLedgers w (w.step e)
  crossed : ∀ cgid kind bytes b, e = .chargeMemory cgid kind bytes →
    (w.tree.tryChargeMemoryTransition cgid kind bytes.toNat).2 = .charged b →
    (b = true ↔ w.CrossesHigh (w.step e) cgid)
  kept : e.charging = false → (w.step e).memory = w.memory ∧ (w.step e).swap = w.swap ∧
    (w.step e).tree.subtreeMem ROOT = w.tree.subtreeMem ROOT ∧
    (w.step e).tree.subtreeSwap ROOT = w.tree.subtreeSwap ROOT

/-- The test on the walk to the root finds exactly the soft limits that are crossed. -/
theorem Accounted.any_crossesHigh (h : Accounted w)
    (hfit : outstanding w.charges + bytes ≤ U64_MAX) :
    (w.tree.path cgid).any (w.tree.crossesHigh bytes) = true ↔
      ∃ a n high, w.tree.within a cgid = true ∧ w.tree.nodes.get? a = some n ∧
        n.memHigh = some high ∧ w.tree.chargedUnder w.charges a ≤ high ∧
        high < w.tree.chargedUnder w.charges a + bytes := by
  have hsat : ∀ a,
      satAdd (w.tree.subtreeMem a) bytes = w.tree.chargedUnder w.charges a + bytes := by
    intro a
    rw [h.subtreeMem]
    exact satAdd_eq (le_trans (Nat.add_le_add_right (chargedUnder_le ..) _) hfit)
  rw [any_eq_true]
  constructor
  · rintro ⟨⟨a, n⟩, hmem, htest⟩
    unfold crossesHigh at htest
    rw [decide_eq_true_iff] at htest
    obtain ⟨-, htest⟩ := htest
    cases hhigh : n.memHigh with
    | none =>
      simp [hhigh] at htest
    | some high =>
      rw [hhigh, Option.any_some, decide_eq_true_iff, hsat, h.subtreeMem] at htest
      exact ⟨a, n, high, within_iff.mpr ⟨n, hmem⟩, get?_of_mem_pathFrom hmem, hhigh, htest⟩
  rintro ⟨a, n, high, hw, hn, hhigh, hle, hlt⟩
  obtain ⟨n', hmem, hn'⟩ := get?_of_within hw
  cases hn.symm.trans hn'
  refine ⟨(a, n), hmem, ?_⟩
  rw [crossesHigh, decide_eq_true_iff, hhigh, Option.any_some, decide_eq_true_iff, hsat,
    h.subtreeMem]
  exact ⟨h.available a n hn (.inr (.inl (by rw [hhigh]; rfl))), hle, hlt⟩

/-- What is charged below a node after a charge. -/
theorem Accounted.charged_below (h : Accounted w) (kind : MemoryKind) (bytes : ℕ)
    (hn : w.tree.nodes.get? cgid = some n) (a : ℕ) :
    (w.tree.addMemory cgid kind bytes).chargedUnder ((cgid, bytes) :: w.charges) a =
      (w.tree.within a cgid).toNat * bytes + w.tree.chargedUnder w.charges a := by
  have hl := addMemory_frame w.tree cgid kind bytes
  have hshape : Keeps shape w.tree (w.tree.addMemory cgid kind bytes) :=
    hl.nodes.proj shape fun _ => rfl
  have hlive : w.tree.Live ((cgid, bytes) :: w.charges) :=
    forall_mem_cons.mpr ⟨⟨n, hn⟩, h.memoryCharged.live⟩
  have hw := (h.within_of_keeps hshape (hshape.formed hl.nextId h.formed) hlive).2
  rw [chargedUnder_congr fun c hc => hw c hc a, chargedUnder_cons]

theorem Accounted.crossed (h : Accounted w) {kind : MemoryKind} {b : Bool}
    (hfit : outstanding w.charges + bytes ≤ U64_MAX)
    (hb : (w.tree.tryChargeMemoryTransition cgid kind bytes).2 = .charged b) :
    b = true ↔ w.CrossesHigh (w.onChargeMemory cgid kind bytes) cgid := by
  rcases onChargeMemory_cases w cgid kind bytes with
    ⟨-, hres, heq⟩ | ⟨⟨l, hres⟩, -⟩ | ⟨-, ⟨n, hn⟩, -, hres, heq⟩
  · cases hb.symm.trans hres
    rw [heq]
    refine iff_of_false Bool.false_ne_true ?_
    rintro ⟨a, n, high, -, -, -, hle, hlt⟩
    exact absurd hlt (not_lt.mpr hle)
  · cases hb.symm.trans hres
  cases hb.symm.trans hres
  rw [h.any_crossesHigh hfit, heq]
  refine exists_congr fun a => exists_congr fun m => exists_congr fun high => ?_
  refine and_congr_right fun hw => ?_
  have hbelow := h.charged_below kind bytes hn a
  rw [hw, Bool.toNat_true, Nat.one_mul, Nat.add_comm] at hbelow
  show _ ↔ _ ∧ _ ∧ _ ∧ high < (w.tree.addMemory cgid kind bytes).chargedUnder
    ((cgid, bytes) :: w.charges) a
  rw [hbelow]

/-- A call that makes no charge leaves the charges outstanding. -/
theorem lists_kept (w : CgWorld) (he : e.charging = false) :
    (w.step e).memory = w.memory ∧ (w.step e).swap = w.swap := by
  cases e with
  | create =>
    dsimp only [CgWorld.step]
    split <;> exact ⟨rfl, rfl⟩
  | remove =>
    dsimp only [CgWorld.step]
    split <;> exact ⟨rfl, rfl⟩
  | addProc => exact (aside_addProc w ..).lists
  | addThread => exact (aside_addThread w ..).lists
  | prepare => exact (aside_prepare w ..).lists
  | commit => exact (aside_commit w ..).lists
  | cancel k => exact (aside_cancel w k).lists
  | exit => exact (aside_exit w ..).lists
  | chargeMemory => cases he
  | unchargeMemory => cases he
  | chargeSwap => cases he
  | unchargeSwap => cases he

theorem Aside.sameLedgers (h : Aside w w') : SameLedgers w w' :=
  ⟨h.nodes.proj (fun x => (x.2.2.2.2.2.1, x.2.2.2.2.2.2)) fun _ => rfl, h.memory, h.swap⟩

theorem Accounted.settled (h : Accounted w) (hfit : w.Fits e) : Settled w e := by
  constructor
  · rintro cgid kind bytes l rfl hmax
    rcases onChargeMemory_cases w cgid kind bytes.toNat with
      ⟨-, hres, -⟩ | ⟨-, ha⟩ | ⟨-, -, -, hres, -⟩
    · cases hmax.symm.trans hres
    · exact ha.sameLedgers
    · cases hmax.symm.trans hres
  · rintro cgid bytes rfl hrefused
    rcases onChargeSwap_cases w cgid bytes.toNat with heq | ⟨-, -, -, hres, -⟩
    · have hsame : w.step (.chargeSwap cgid bytes) = w := heq
      rw [hsame]
      exact (Aside.refl w).sameLedgers
    · cases hrefused.symm.trans hres
  · rintro cgid kind bytes b rfl hb
    exact h.crossed hfit hb
  intro he
  obtain ⟨hmem, hswap⟩ := w.lists_kept he
  have h1 := h.bounded
  have h2 := (h.step hfit).bounded
  refine ⟨hmem, hswap, ?_, ?_⟩
  · rw [h1.memoryRoot, h2.memoryRoot, charges, hmem]
    rfl
  · rw [h1.swapRoot, h2.swapRoot, hswap]

/-- **Hierarchical limits hold in every run whose charges fit in 64 bits**, from any hierarchy that
is within its limits and whose ledgers are the charges outstanding, such as one with no charges. -/
theorem limits_hold (es : List CgEvent) (h : Accounted w)
    (hrun : Run.Meets CgWorld.step Fits w es) :
    Run.Always CgWorld.step Bounded w es ∧ Run.Meets CgWorld.step Settled w es := by
  have hstep : ∀ w e, Accounted w → Fits w e → Accounted (CgWorld.step w e) :=
    fun w e hw hfit => hw.step hfit
  exact ⟨hrun.always hstep h fun w hw => hw.bounded,
    hrun.imp (fun w e hw hfit => ⟨hstep w e hw hfit, hw.settled hfit⟩) h⟩

/-- A directory with limits, without charges. -/
def limitedNode : CgNode :=
  { CgNode.new "a" (some ROOT) ALL with
    memMax := some 100
    memHigh := some 50
    swapMax := some 100 }

def limited : CgWorld :=
  ⟨{ CgTree.empty.mountRoot with
      nodes := (OrdMap.empty.insert ROOT
        { CgNode.new "" none ALL with children := OrdMap.empty.insert "a" 2 }).insert 2 limitedNode
      nextId := 3 },
    .empty, [], [], [], false⟩

theorem limited_get? (k : ℕ) : limited.tree.nodes.get? k =
    if k = 2 then some limitedNode
    else if k = ROOT then
      some { CgNode.new "" none ALL with children := OrdMap.empty.insert "a" 2 }
    else none :=
  (OrdMap.get?_insert ..).trans (if_congr Iff.rfl rfl (OrdMap.get?_insert ..))

theorem limited_accounted : Accounted limited := by
  have hcases : ∀ {k n}, limited.tree.nodes.get? k = some n → (k = 2 ∧ n = limitedNode) ∨
      (k = ROOT ∧ n = { CgNode.new "" none ALL with children := OrdMap.empty.insert "a" 2 }) := by
    intro k n hn
    rw [limited_get?] at hn
    split_ifs at hn with h2 hroot <;> cases hn
    · exact .inl ⟨h2, rfl⟩
    · exact .inr ⟨hroot, rfl⟩
  constructor
  · refine ⟨⟨_, limited_get? ROOT, rfl⟩, ?_, ?_, ?_, ?_⟩ <;> intro id n
    · intro p hn hp
      rcases hcases hn with ⟨rfl, rfl⟩ | ⟨rfl, rfl⟩ <;> cases hp
      exact ⟨by decide, _, limited_get? ROOT, rfl⟩
    · intro name c hn hc
      rcases hcases hn with ⟨rfl, rfl⟩ | ⟨rfl, rfl⟩
      · cases hc
      rcases OrdMap.of_get?_insert hc with ⟨rfl, rfl⟩ | ⟨-, hc⟩
      · exact ⟨_, limited_get? 2, rfl, rfl⟩
      · cases hc
    · intro hn hp
      rcases hcases hn with ⟨rfl, rfl⟩ | ⟨rfl, rfl⟩
      · cases hp
      · rfl
    · intro hn
      rcases hcases hn with ⟨rfl, -⟩ | ⟨rfl, -⟩ <;> decide
  · intro k n hn hlim
    rcases hcases hn with ⟨rfl, rfl⟩ | ⟨rfl, rfl⟩
    · decide
    · rcases hlim with hlim | hlim | hlim <;> cases hlim
  · intro k n hn kind
    rcases hcases hn with ⟨rfl, rfl⟩ | ⟨rfl, rfl⟩ <;> rfl
  · intro k n hn
    rcases hcases hn with ⟨rfl, rfl⟩ | ⟨rfl, rfl⟩ <;> rfl
  iterate 2 exact ⟨nofun, nofun, Nat.zero_le _, fun _ _ _ _ _ => Nat.zero_le _⟩

/-- A charge crosses the soft limit, one is refused, and one is returned. -/
def crossAndReturn : List CgEvent :=
  [.chargeMemory 2 .anon 60#64, .chargeMemory 2 .file 60#64, .chargeSwap 2 10#64, .unchargeMemory 0]

theorem crossAndReturn_bounded :
    (Accounted limited ∧ Run.Meets CgWorld.step Fits limited crossAndReturn) ∧
      Run.Always CgWorld.step Bounded limited crossAndReturn ∧
      Run.Meets CgWorld.step Settled limited crossAndReturn := by
  have hrun : Run.Meets CgWorld.step Fits limited crossAndReturn := by
    refine ⟨?_, ?_, ?_, trivial, trivial⟩
    · show outstanding limited.charges + 60 ≤ U64_MAX
      decide
    · show outstanding (limited.step (.chargeMemory 2 .anon 60#64)).charges + 60 ≤ U64_MAX
      decide
    · show outstanding ((limited.step (.chargeMemory 2 .anon 60#64)).step
        (.chargeMemory 2 .file 60#64)).swap + 10 ≤ U64_MAX
      decide
  exact ⟨⟨limited_accounted, hrun⟩, limits_hold crossAndReturn limited_accounted hrun⟩

/-- Two pages are allocated by `vmalloc`; a third allocation, of as many bytes as the word holds, is
charged, finds no memory and returns its charge. -/
def failedVmalloc : List CgEvent :=
  [.chargeMemory ROOT .vmalloc 8192#64,
    .chargeMemory ROOT .vmalloc (BitVec.ofNat 64 (2 ^ 64 - 4096)),
    .unchargeMemory 0]

/-- The ledger saturates at the charge, so that the return leaves less than is outstanding. -/
theorem failedVmalloc_loses : Accounted limited ∧
    (failedVmalloc.foldl CgWorld.step limited).tree.subtreeMem ROOT = 4095 ∧
    outstanding (failedVmalloc.foldl CgWorld.step limited).charges = 8192 ∧
    ¬ Run.Always CgWorld.step Bounded limited failedVmalloc := by
  have hleft : (failedVmalloc.foldl CgWorld.step limited).tree.subtreeMem ROOT = 4095 := by
    decide +kernel
  have hout : outstanding (failedVmalloc.foldl CgWorld.step limited).charges = 8192 := by
    decide +kernel
  refine ⟨limited_accounted, hleft, hout, fun h => ?_⟩
  have hroot := h.last.memoryRoot
  rw [hleft, hout] at hroot
  cases hroot

end CgWorld

end Oxide
