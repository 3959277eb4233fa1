/-
The deadline ledger is exact as long as no departed booking is reused.

* `DlWorld.Accounted`: the total is the sum of the current and of the departed reservations, every
  booking is held or released once, no assertion has failed, and the total fits the CPUs online;
* `DlWorld.Kept`: the invariant that carries it, with one entity allowed to be in the middle of a
  policy change;
* `DlWorld.accounted_of_noReuse`: **the ledger is accounted for in every state of a run in which
  no ordinary request comes for an entity whose departed booking is still armed**;
* `DlWorld.reuse_panics`: four policy changes of one task after which the ledger panics.
-/
import Oxide.DlLedger
import Oxide.Runs
import Mathlib.Algebra.Order.BigOperators.Group.Finset

namespace Oxide

open Function Option

variable {e : DlEntity} {p wanted : DlParams} {g k n new old t total : ℕ}

/-! ### What an entity holds -/

namespace DlEntity

/-- The bandwidth of the current reservation. -/
def currentBw (e : DlEntity) : ℕ := if e.booking.isSome then e.params.bw else 0

/-- The bandwidth of the departed reservation. -/
def departedBw (e : DlEntity) : ℕ := (e.departed.map Prod.snd).getD 0

/-- How often the entity holds a booking. -/
def holds (k : ℕ) (e : DlEntity) : ℕ :=
  (if e.booking = some k then 1 else 0) + if e.departed.map Prod.fst = some k then 1 else 0

/-- The booking of an entity is ordinary and its token is free; a departed booking stands behind an
armed token. -/
structure Linked (e : DlEntity) : Prop where
  current : e.booking.isSome → e.word = .empty ∧ e.policyDl = true ∧ e.params.isSpecial = false
  empty : e.word = .empty → e.departed = none
  armed : ∀ g, e.word = .armed g → ∃ k, e.departed = some (k, e.inactiveBw)
  claimed : ∀ g, e.word ≠ .claimed g

/-- The parameters of an entity without a booking carry no bandwidth, or the timer will clear
them. -/
def Residue (e : DlEntity) : Prop :=
  e.params.isSpecial = true ∨ e.params.bw = 0 ∨ e.armed = true ∧ e.inactiveClear = true

/-- What holds of an entity between two policy changes: a task that lives has a booking exactly if
it has an ordinary deadline policy, and no timer will clear a deadline task. -/
structure Settled (e : DlEntity) : Prop where
  residue : e.booking = none → e.Residue
  ordinary : e.zombie = false → e.booking.isSome = (e.policyDl && !e.params.isSpecial)
  spared : e.zombie = false → e.policyDl = true → e.armed = true → e.inactiveClear = false

variable {e : DlEntity}

theorem armed_of_armed (h : e.word = .armed g) : e.armed = true := by
  rw [DlEntity.armed, h]

theorem armed_of_empty (h : e.word = .empty) : e.armed = false := by
  rw [DlEntity.armed, h]

theorem currentBw_some (h : e.booking = some k) : e.currentBw = e.params.bw := by
  rw [currentBw, h]
  rfl

theorem currentBw_none (h : e.booking = none) : e.currentBw = 0 := by
  rw [currentBw, h]
  rfl

theorem departedBw_none (h : e.departed = none) : e.departedBw = 0 := by
  rw [departedBw, h]
  rfl

/-- Without a token the parameters of a residue carry no bandwidth. -/
theorem Residue.of_empty (h : e.Residue) (hw : e.word = .empty) :
    e.params.isSpecial = true ∨ e.params.bw = 0 := by
  rcases h with hs | hbw | ⟨harm, -⟩
  · exact .inl hs
  · exact .inr hbw
  · rw [armed_of_empty hw] at harm
    cases harm

/-- No token is ever seen claimed. -/
theorem Linked.word_eq_empty (h : e.Linked) (ha : e.armed = false) : e.word = .empty := by
  cases hw : e.word with
  | empty => rfl
  | armed =>
    rw [armed_of_armed hw] at ha
    cases ha
  | claimed g => exact absurd hw (h.claimed g)

theorem Linked.unbooked (h : e.Linked)
    (hne : ¬ (e.word = .empty ∧ e.policyDl = true ∧ e.params.isSpecial = false)) :
    e.booking = none :=
  not_isSome_iff_eq_none.mp fun hs => hne (h.current hs)

theorem Linked.booking_eq_none (h : e.Linked) (hw : e.word = .armed g) : e.booking = none :=
  h.unbooked fun hc => by
    rw [hw] at hc
    cases hc.1

/-- The ledger sees an entity in its booking and its token, and a booking in its parameters. -/
theorem Linked.amend {e' : DlEntity} (h : e.Linked) (hd : e'.departed = e.departed)
    (hword : e'.word = e.word) (hbw : e'.inactiveBw = e.inactiveBw)
    (hcur : e'.booking.isSome →
      e'.word = .empty ∧ e'.policyDl = true ∧ e'.params.isSpecial = false) : e'.Linked := by
  refine ⟨hcur, ?_, ?_, ?_⟩
  · rw [hword, hd]
    exact h.empty
  · rw [hword, hd, hbw]
    exact h.armed
  · rw [hword]
    exact h.claimed

end DlEntity

/-! ### The arithmetic of admission -/

theorem toRatio_le {period runtime : ℕ} (hle : runtime ≤ period) (hmax : runtime < 2 ^ 44) :
    toRatio period runtime ≤ BW_UNIT := by
  rw [toRatio, if_neg (by omega)]
  split
  · exact Nat.zero_le _
  refine Nat.div_le_of_le_mul ?_
  calc runtime * BW_UNIT % 2 ^ 64 ≤ runtime * BW_UNIT := Nat.mod_le _ _
    _ ≤ period * BW_UNIT := Nat.mul_le_mul_right _ hle

theorem DlRequest.isSpecial_params (r : DlRequest) :
    r.params.isSpecial = (r.flags &&& FLAG_SUGOV != 0) := by
  show (r.flags &&& SCHED_DL_FLAGS &&& FLAG_SUGOV != 0) = _
  rw [BitVec.and_assoc]
  rfl

variable {r : DlRequest}

/-- What the ladder leaves of an ordinary request: a runtime within the deadline, and a deadline
within a bounded period. -/
theorem DlRequest.within (h : r.checkparam = true) (hord : r.params.isSpecial = false) :
    2 ^ 10 ≤ r.runtime ∧ r.runtime ≤ r.deadline ∧ r.deadline ≤ r.params.period ∧
      r.params.period ≤ DL_PERIOD_MAX_NS := by
  rw [DlRequest.isSpecial_params] at hord
  unfold DlRequest.checkparam at h
  rw [if_neg (by rw [hord]; exact Bool.false_ne_true)] at h
  show _ ∧ _ ∧ _ ≤ (if r.period = 0 then r.deadline else r.period) ∧ _
  dsimp only [DlRequest.params] at h ⊢
  generalize (if r.period = 0 then r.deadline else r.period) = period at h ⊢
  split_ifs at h
  simp only [Bool.not_eq_true', Bool.or_eq_false_iff, decide_eq_false_iff_not] at h
  omega

/-- A validated ordinary request asks for at most one CPU. -/
theorem DlRequest.bw_le (h : r.checkparam = true)
    (hord : r.params.isSpecial = false) : r.params.bw ≤ BW_UNIT := by
  obtain ⟨-, hrun, hdl, hmax⟩ := r.within h hord
  unfold DL_PERIOD_MAX_NS at hmax
  exact toRatio_le (hrun.trans hdl) (by omega)

/-- Replacing a booking that is counted in the total neither underflows nor overflows. -/
theorem replaced_eq_ok (hold : old ≤ total) (hnew : total + new < 2 ^ 64) :
    replaced total old new = .ok (total - old + new) := by
  rw [replaced, if_neg (by omega), if_neg (by omega)]

theorem dlOverflow_eq_ok {bw cap : ℕ} (hbw : bw = DEFAULT_BW) (hold : old ≤ total)
    (hnew : total + new < 2 ^ 64) :
    dlOverflow bw cap total old new = .ok (decide (capScale bw cap < total - old + new)) := by
  rw [dlOverflow, if_neg (by rw [hbw]; decide), replaced_eq_ok hold hnew]
  rfl

namespace DlWorld

open DlEntity

variable {ε : Type} {w : DlWorld ε} {x : ε}

/-- The CPUs online can be given out whole. -/
theorem capScale_capacity (h : w.bw = DEFAULT_BW) :
    capScale w.bw w.capacity = w.online.card * BW_UNIT ∧ w.online.card ≤ 256 := by
  have hcard : w.online.card ≤ 256 := by
    have := Finset.card_le_univ w.online
    rwa [Fintype.card_fin] at this
  rw [capScale, capacity, capacityOf, h]
  unfold DEFAULT_BW BW_UNIT
  omega

variable [Fintype ε]

/-! ### The property -/

/-- The sum of the current and of the departed reservations. -/
def reservedBw (w : DlWorld ε) : ℕ :=
  ∑ x, ((w.entity x).currentBw + (w.entity x).departedBw)

/-- **The ledger is accounted for.** -/
structure Accounted (w : DlWorld ε) : Prop where
  /-- The total is what is reserved. -/
  balanced : w.total = w.reservedBw
  /-- The tasks alive with an ordinary deadline policy are those with a current booking. -/
  ordinary : ∀ x, (w.entity x).zombie = false →
    (w.entity x).booking.isSome = ((w.entity x).policyDl && !(w.entity x).params.isSpecial)
  /-- Every booking made is held once or has been released once. -/
  once : ∀ k, ∑ x, (w.entity x).holds k + w.released.count k = if k < w.nextBooking then 1 else 0
  /-- A departed booking has a timer that will release it. -/
  timed : ∀ x, (w.entity x).departed.isSome →
    ∃ g, (w.entity x).word = .armed g ∧ (x ∈ w.queue ∨ (x, g) ∈ w.popped)
  /-- No assertion of the ledger has failed. -/
  sound : w.panicked = false
  /-- The CPUs online can serve the total. -/
  fits : w.total ≤ capScale w.bw w.capacity

/-- The invariant, with an entity left out that is in the middle of a policy change. -/
structure Kept (w : DlWorld ε) (inside : Option ε) : Prop where
  linked : ∀ y, (w.entity y).Linked
  settled : ∀ y, inside ≠ some y → (w.entity y).Settled
  bw : w.bw = DEFAULT_BW
  balanced : w.total = w.reservedBw
  once : ∀ k, ∑ y, (w.entity y).holds k + w.released.count k = if k < w.nextBooking then 1 else 0
  timed : ∀ y g, (w.entity y).word = .armed g → y ∈ w.queue ∨ (y, g) ∈ w.popped
  sound : w.panicked = false
  fits : w.total ≤ capScale w.bw w.capacity

theorem Kept.settled' (h : w.Kept none) (x : ε) : (w.entity x).Settled :=
  h.settled x (some_ne_none x).symm

theorem Kept.open (h : w.Kept none) (x : ε) : w.Kept (some x) :=
  { h with settled := fun y _ => h.settled' y }

theorem Kept.close (h : w.Kept (some x)) (hx : (w.entity x).Settled) : w.Kept none := by
  refine { h with settled := fun y _ => ?_ }
  by_cases hy : some x = some y
  · rwa [← Option.some.inj hy]
  · exact h.settled y hy

theorem Kept.accounted (h : w.Kept none) : w.Accounted where
  balanced := h.balanced
  ordinary := fun x => (h.settled' x).ordinary
  once := h.once
  timed := fun x hx => by
    have hl := h.linked x
    cases hw : (w.entity x).word with
    | empty =>
      rw [hl.empty hw] at hx
      cases hx
    | armed g => exact ⟨g, rfl, h.timed x g hw⟩
    | claimed g => exact absurd hw (hl.claimed g)
  sound := h.sound
  fits := h.fits

variable {o : Option ε}

/-- The total has room for a reservation of one CPU. -/
theorem Kept.total_lt (h : w.Kept o) (hk : k ≤ BW_UNIT) : w.total + k < 2 ^ 64 := by
  obtain ⟨hscale, hcard⟩ := capScale_capacity h.bw
  have hfits := h.fits
  rw [hscale] at hfits
  unfold BW_UNIT at hfits hk
  omega

theorem Kept.reserved_le (h : w.Kept o) (x : ε) :
    (w.entity x).currentBw + (w.entity x).departedBw ≤ w.total := by
  rw [h.balanced]
  exact Finset.single_le_sum
    (f := fun y => (w.entity y).currentBw + (w.entity y).departedBw)
    (fun _ _ => Nat.zero_le _) (Finset.mem_univ x)

variable [DecidableEq ε]

/-- **What an event may do to an entity**: the total moves with what the entity holds, and so do the
numbers of bookings. -/
theorem Kept.change (h : w.Kept (some x)) {w' : DlWorld ε}
    (hentity : w'.entity = update w.entity x e) (hbw : w'.bw = w.bw)
    (hlinked : e.Linked)
    (htotal : w'.total + ((w.entity x).currentBw + (w.entity x).departedBw) =
      w.total + (e.currentBw + e.departedBw))
    (honce : ∀ k, e.holds k + w'.released.count k + (if k < w.nextBooking then 1 else 0) =
      (w.entity x).holds k + w.released.count k + if k < w'.nextBooking then 1 else 0)
    (hqueue : ∀ y, y ≠ x → y ∈ w.queue → y ∈ w'.queue)
    (hpopped : ∀ y g, y ≠ x → (y, g) ∈ w.popped → (y, g) ∈ w'.popped)
    (htimed : ∀ g, e.word = .armed g → x ∈ w'.queue ∨ (x, g) ∈ w'.popped)
    (hsound : w'.panicked = false) (hfits : w'.total ≤ capScale w'.bw w'.capacity) :
    w'.Kept (some x) := by
  have hself : w'.entity x = e := by rw [hentity, update_self]
  have hother : ∀ y, y ≠ x → w'.entity y = w.entity y := fun y hy => by
    rw [hentity, update_of_ne hy]
  refine ⟨fun y => ?_, fun y hy => ?_, hbw.trans h.bw, ?_, fun k => ?_, fun y g hg => ?_, hsound,
    hfits⟩
  · by_cases hyx : y = x
    · rwa [hyx, hself]
    · rw [hother y hyx]
      exact h.linked y
  · have hyx : y ≠ x := fun hyx => hy (congrArg some hyx.symm)
    rw [hother y hyx]
    exact h.settled y hy
  · have hsum := Table.sum_update (fun e : DlEntity => e.currentBw + e.departedBw) w.entity x e
    have hold := h.balanced
    unfold reservedBw at hold ⊢
    rw [hentity]
    omega
  · have hsum := Table.sum_update (holds k) w.entity x e
    have hold := h.once k
    have hk := honce k
    rw [hentity]
    omega
  by_cases hyx : y = x
  · rw [hyx] at hg ⊢
    rw [hself] at hg
    exact htimed g hg
  · rw [hother y hyx] at hg
    exact (h.timed y g hg).imp (hqueue y hyx) (hpopped y g hyx)

theorem Kept.rewrite (h : w.Kept (some x)) {released : List ℕ}
    (hword : e.word = (w.entity x).word) (hlinked : e.Linked)
    (htotal : t + ((w.entity x).currentBw + (w.entity x).departedBw) =
      w.total + (e.currentBw + e.departedBw))
    (honce : ∀ k, e.holds k + released.count k + (if k < w.nextBooking then 1 else 0) =
      (w.entity x).holds k + w.released.count k + if k < n then 1 else 0)
    (hfits : t ≤ capScale w.bw w.capacity) :
    DlWorld.Kept { w.put x e with total := t, nextBooking := n, released := released } (some x) :=
  h.change rfl rfl hlinked htotal honce (fun _ _ hy => hy) (fun _ _ _ hy => hy)
    (fun g hg => h.timed x g (hword ▸ hg)) h.sound hfits

/-- The number of a booking that ends moves from the entity to the released ones. -/
theorem holds_release (hb : e.booking = some k) (p : DlParams) (released : List ℕ) (k' : ℕ) :
    holds k' { e with params := p, booking := none } + (k :: released).count k' =
      e.holds k' + released.count k' := by
  unfold holds
  rw [hb]
  by_cases hk : k = k'
  · simp [hk]
    omega
  · simp [hk]

/-! ### Leaving the class -/

omit [Fintype ε] in
theorem clear_unbook_some (hb : (w.entity x).booking = some k) :
    (w.clear x).unbook x = { w.put x { w.entity x with params := .zero, booking := none } with
      released := k :: w.released } := by
  unfold unbook clear put
  dsimp only
  rw [update_self]
  rw [hb]
  rw [update_idem]

omit [Fintype ε] in
theorem clear_unbook_none (hb : (w.entity x).booking = none) :
    (w.clear x).unbook x = w.put x { w.entity x with params := .zero } := by
  unfold unbook clear put
  dsimp only
  rw [update_self]
  rw [hb]

omit [Fintype ε] in
theorem depart_none (hb : (w.entity x).booking = none) : w.depart x = w := by
  unfold depart
  dsimp only
  rw [hb]

/-- A booking of no bandwidth, or none, ends by clearing the entity. -/
theorem Kept.clearUnbook (h : w.Kept (some x)) (hz : (w.entity x).currentBw = 0) :
    ((w.clear x).unbook x).Kept (some x) := by
  have hl := h.linked x
  cases hb : (w.entity x).booking with
  | none =>
    rw [clear_unbook_none hb]
    refine h.rewrite rfl (hl.amend rfl rfl rfl fun hsome => ?_) ?_ (fun _ => rfl) h.fits
    · simp [hb] at hsome
    unfold currentBw
    rw [hb]
    rfl
  | some =>
  rw [clear_unbook_some hb]
  refine h.rewrite rfl (hl.amend rfl rfl rfl nofun) ?_
    (fun j => congrArg (· + _) (holds_release hb .zero w.released j)) h.fits
  rw [hz]
  rfl

omit [Fintype ε] [DecidableEq ε] in
theorem mem_insert {z : BitVec 64} {y : ε} {l : List ε} : y ∈ w.insert x z l ↔ y = x ∨ y ∈ l := by
  induction l with
  | nil => exact List.mem_cons
  | cons c rest ih =>
  unfold insert
  split
  · exact List.mem_cons
  · rw [List.mem_cons, ih, List.mem_cons]
    exact or_left_comm

omit [Fintype ε] in
theorem depart_some (hb : (w.entity x).booking = some k) :
    w.depart x = w.put x { w.entity x with
      booking := none, departed := some (k, (w.entity x).params.bw) } := by
  unfold depart
  dsimp only
  rw [hb]

/-- The entity of a reservation that departs. -/
def departing (e : DlEntity) (k g : ℕ) (z : BitVec 64) (c : Bool) : DlEntity :=
  { e.arm g z e.params.bw c with booking := none, departed := some (k, e.params.bw) }

/-- The number of a booking that departs stays with the entity. -/
theorem holds_departing (hb : e.booking = some k) (hd : e.departed = none) (g : ℕ) (z : BitVec 64)
    (c : Bool) (k' : ℕ) : (departing e k g z c).holds k' = e.holds k' := by
  unfold departing holds
  rw [hb, hd]
  simp

/-- The token takes the booking over, and its timer is queued. -/
theorem Kept.armDepart (h : w.Kept (some x)) (hb : (w.entity x).booking = some k) (z : BitVec 64)
    (c : Bool) :
    ∃ w1, w.arm x z (w.entity x).params.bw c = some w1 ∧ (w1.depart x).Kept (some x) ∧
      (w1.depart x).entity x = departing (w.entity x) k w.generation z c := by
  have hl := h.linked x
  obtain ⟨hempty, -, -⟩ := hl.current (by rw [hb]; rfl)
  have hd := hl.empty hempty
  refine ⟨_, by unfold arm; rw [if_neg (not_not.mpr hempty)], ?_⟩
  rw [depart_some (by unfold put; dsimp only; rw [update_self]; exact hb)]
  unfold put
  dsimp only
  rw [update_self, update_idem]
  refine ⟨?_, update_self ..⟩
  refine h.change rfl rfl ⟨nofun, nofun, fun _ _ => ⟨k, rfl⟩, nofun⟩ ?_
    (fun k' => congrArg (· + w.released.count k' + _) (holds_departing hb hd _ z c k'))
    (fun y _ hy => mem_insert.mpr (.inr hy)) (fun _ _ _ hy => hy)
    (fun _ _ => .inl (mem_insert.mpr (.inl rfl))) h.sound h.fits
  rw [currentBw_some hb, departedBw_none hd]
  show w.total + _ = w.total + (0 + (w.entity x).params.bw)
  omega

theorem Kept.releaseNow (h : w.Kept (some x)) (hb : (w.entity x).booking = some k) :
    (((w.release (w.entity x).params.bw).clear x).unbook x).Kept (some x) ∧
      (((w.release (w.entity x).params.bw).clear x).unbook x).entity x =
        { w.entity x with params := .zero, booking := none } := by
  have hl := h.linked x
  have hle := h.reserved_le x
  rw [currentBw_some hb] at hle
  have hrel : w.release (w.entity x).params.bw =
      { w with total := w.total - (w.entity x).params.bw } := by
    rw [release, if_neg (by omega)]
  rw [hrel, clear_unbook_some (w := { w with total := w.total - (w.entity x).params.bw }) hb]
  refine ⟨?_, update_self ..⟩
  refine h.rewrite rfl (hl.amend rfl rfl rfl nofun) ?_
    (fun j => congrArg (· + _) (holds_release hb .zero w.released j))
    (Nat.le_trans (Nat.sub_le _ _) h.fits)
  rw [currentBw_some hb]
  show w.total - (w.entity x).params.bw + _ = w.total + (0 + (w.entity x).departedBw)
  omega

/-- What is left of an entity that has left the class. -/
structure Left (e e' : DlEntity) (c : Bool) : Prop where
  booking : e'.booking = none
  zombie : e'.zombie = e.zombie
  residue : c = true → (e.booking = none → e.Residue) → e'.Residue
  clears : e'.armed = true → e'.inactiveClear = if e.armed then e.inactiveClear else c

/-- **Leaving the class** retains a booking or releases it. -/
theorem Kept.leaveClassFor (h : w.Kept (some x))
    (hres : (w.entity x).booking = none → (w.entity x).word = .empty →
      (w.entity x).params.isSpecial = true ∨ (w.entity x).params.bw = 0)
    (c : Bool) (z now : BitVec 64) :
    (w.leaveClassFor x c z now).Kept (some x) ∧
      Left (w.entity x) ((w.leaveClassFor x c z now).entity x) c := by
  have hl := h.linked x
  unfold DlWorld.leaveClassFor
  by_cases hz : (w.entity x).params.bw = 0 ∨ (w.entity x).params.isSpecial = true
  · rw [if_pos hz]
    cases hb : (w.entity x).booking with
    | none =>
      refine ⟨h.clearUnbook (currentBw_none hb), ?_⟩
      rw [clear_unbook_none hb]
      have hself : (w.put x { w.entity x with params := .zero }).entity x =
          { w.entity x with params := .zero } := update_self ..
      rw [hself]
      exact ⟨hb, rfl, fun _ _ => .inr (.inl rfl), fun ha => (if_pos ha).symm⟩
    | some =>
    -- a current booking is not special, so it has no bandwidth
    obtain ⟨-, -, hord⟩ := hl.current (by rw [hb]; rfl)
    have hzero : (w.entity x).params.bw = 0 :=
      hz.resolve_right (by rw [hord]; exact Bool.false_ne_true)
    refine ⟨h.clearUnbook (by rw [currentBw_some hb, hzero]), ?_⟩
    rw [clear_unbook_some hb]
    have hself : (w.put x { w.entity x with params := .zero, booking := none }).entity x =
        { w.entity x with params := .zero, booking := none } := update_self ..
    rw [hself]
    exact ⟨rfl, rfl, fun _ _ => .inr (.inl rfl), fun ha => (if_pos ha).symm⟩
  rw [if_neg hz]
  rw [not_or] at hz
  by_cases hword : (w.entity x).word = .empty
  · rw [if_neg (not_not.mpr hword)]
    -- without a booking the parameters would be a residue
    obtain ⟨k, hb⟩ : ∃ k, (w.entity x).booking = some k := by
      cases hb : (w.entity x).booking with
      | some k => exact ⟨k, rfl⟩
      | none =>
      rcases hres hb hword with hs | hbw
      · exact absurd hs hz.2
      · exact absurd hbw hz.1
    split
    case h_1 w1 heq =>
      split at heq
      · obtain ⟨w2, harm, hkept, hself⟩ := h.armDepart hb z c
        rw [harm] at heq
        cases heq
        refine ⟨hkept, ?_⟩
        rw [hself]
        refine ⟨rfl, rfl, fun hc _ => .inr (.inr ⟨rfl, hc⟩), fun _ => ?_⟩
        rw [armed_of_empty hword]
        rfl
      · cases heq
    obtain ⟨hkept, hself⟩ := h.releaseNow hb
    refine ⟨hkept, ?_⟩
    rw [hself]
    exact ⟨rfl, rfl, fun _ _ => .inr (.inl rfl), fun ha => (if_pos ha).symm⟩
  rw [if_pos hword]
  have hb := hl.unbooked fun hc => hword hc.1
  rw [depart_none hb]
  exact ⟨h, hb, rfl, fun _ hr => hr hb, fun ha => (if_pos ha).symm⟩

/-! ### Policy changes that book nothing -/

omit [Fintype ε] in
theorem put_entity_self (w : DlWorld ε) (x : ε) (e : DlEntity) : (w.put x e).entity x = e :=
  update_self ..

/-- An entity may change in what the ledger does not depend on. -/
theorem Kept.amend (h : w.Kept (some x)) (hb : e.booking = (w.entity x).booking)
    (hd : e.departed = (w.entity x).departed) (hword : e.word = (w.entity x).word)
    (hbw : e.inactiveBw = (w.entity x).inactiveBw)
    (hcur : e.booking.isSome → e.params = (w.entity x).params ∧
      e.policyDl = (w.entity x).policyDl) : (w.put x e).Kept (some x) := by
  have hl := h.linked x
  refine h.rewrite hword (hl.amend hd hword hbw fun hsome => ?_) ?_ (fun k => ?_) h.fits
  · obtain ⟨hp, hpol⟩ := hcur hsome
    rw [hword, hpol, hp]
    exact hl.current (hb ▸ hsome)
  · have hcurrent : e.currentBw = (w.entity x).currentBw := by
      cases hs : e.booking with
      | none => rw [currentBw_none hs, currentBw_none (hb.symm.trans hs)]
      | some =>
        rw [currentBw_some hs, currentBw_some (hb.symm.trans hs), (hcur (by rw [hs]; rfl)).1]
    have hdeparted : e.departedBw = (w.entity x).departedBw := by
      unfold departedBw
      rw [hd]
    rw [hcurrent, hdeparted]
  · unfold holds
    rw [hb, hd]

/-- A governor entity, or a dead one, is installed without a booking. -/
theorem Kept.installFree (h : w.Kept (some x)) (hb : (w.entity x).booking = none)
    (hp : p.isSpecial = true) :
    (w.install x p).Kept (some x) ∧ ((w.install x p).entity x).booking = none ∧
      ((w.install x p).entity x).Residue ∧
      (((w.install x p).entity x).zombie = false →
        ((w.install x p).entity x).params.isSpecial = true) ∧
      (((w.install x p).entity x).armed = (w.entity x).armed ∧
        ((w.install x p).entity x).inactiveClear = (w.entity x).inactiveClear) := by
  unfold install
  by_cases hz : (w.entity x).zombie = true
  · rw [if_pos hz]
    rw [if_neg (by rw [hp]; exact Bool.false_ne_true)]
    refine ⟨h.clearUnbook (currentBw_none hb), ?_⟩
    rw [clear_unbook_none hb, put_entity_self]
    refine ⟨hb, .inr (.inl rfl), fun hne => ?_, rfl, rfl⟩
    cases hz.symm.trans hne
  rw [if_neg hz]
  refine ⟨h.amend rfl rfl rfl rfl fun hsome => ?_, ?_⟩
  · simp [hb] at hsome
  rw [setParams, put_entity_self]
  exact ⟨hb, .inl hp, fun _ => hp, rfl, rfl⟩

variable {wantDl : Bool}

omit [DecidableEq ε] [Fintype ε] in
theorem planTransition_free (w : DlWorld ε) (old : Bool × ℕ × Bool)
    (hfree : (wantDl && !wanted.isSpecial) = false) :
    ∃ c, planTransition w.bw w.capacity w.total wantDl old.1 old.2.1 wanted.bw old.2.2
        wanted.isSpecial = .ok c ∧ changedTotal w.total c = .ok w.total := by
  unfold planTransition
  dsimp only
  rw [hfree, Bool.false_and, Bool.false_and, Bool.false_and, if_neg Bool.false_ne_true,
    if_neg Bool.false_ne_true, if_neg Bool.false_ne_true]
  split
  · exact ⟨_, rfl, rfl⟩
  · exact ⟨_, rfl, rfl⟩

omit [Fintype ε] in
/-- A governor entity keeps an armed token from clearing it. -/
theorem useToken_free (hl : (w.entity x).Linked) (hfree : (wantDl && !wanted.isSpecial) = false) :
    w.useToken x wantDl wanted = (if (w.entity x).armed && wantDl then
      w.put x { w.entity x with inactiveClear := false } else w, .none) := by
  unfold useToken
  dsimp only
  cases hw : (w.entity x).word with
  | claimed g => exact absurd hw (hl.claimed g)
  | empty =>
    rw [armed_of_empty hw]
    rfl
  | armed =>
  rw [armed_of_armed hw]
  cases wantDl with
  | false => rfl
  | true =>
  rw [Bool.true_and, Bool.not_eq_false'] at hfree
  rw [hfree]
  rfl

omit [Fintype ε] in
theorem inactiveAdmit_free (hl : (w.entity x).Linked)
    (hfree : (wantDl && !wanted.isSpecial) = false) :
    w.inactiveAdmit x wantDl wanted = .ok (if (w.entity x).armed && wantDl then
      w.put x { w.entity x with inactiveClear := false } else w) := by
  obtain ⟨c, hplan, htotal⟩ := planTransition_free w (oldBooking (w.entity x)) hfree
  have hpending : w.admitPending x wantDl wanted = .ok (w.useToken x wantDl wanted) := by
    unfold admitPending
    dsimp only
    rw [hplan]
    show (changedTotal w.total c >>= fun total => _) = _
    rw [htotal]
    rfl
  rw [inactiveAdmit, hpending, useToken_free hl hfree, hfree]
  rfl

theorem Kept.policyFree (h : w.Kept none) {wanted : Option DlParams}
    (hfree : ∀ p, wanted = some p → p.isSpecial = true) (z now : BitVec 64) :
    ∃ w', w.inactiveAdmit x wanted.isSome (wanted.getD .zero) = .ok w' ∧
      (w'.apply x wanted z now).Kept none := by
  have hl := h.linked x
  have hset := h.settled' x
  have hno : (wanted.isSome && !(wanted.getD .zero).isSpecial) = false := by
    cases wanted with
    | none => rfl
    | some p =>
    show (true && !p.isSpecial) = false
    rw [hfree p rfl]
    rfl
  refine ⟨_, inactiveAdmit_free hl hno, ?_⟩
  cases wanted with
  | none =>
    rw [isSome_none, Bool.and_false, if_neg Bool.false_ne_true]
    unfold apply
    dsimp only
    by_cases hpol : (w.entity x).policyDl = true
    · rw [if_pos hpol]
      obtain ⟨hkept, hleft⟩ := (h.open x).leaveClassFor
        (fun hb hw => (hset.residue hb).of_empty hw) true z now
      refine Kept.close (hkept.amend rfl rfl rfl rfl fun hsome => ?_) ?_
      · simp [hleft.booking] at hsome
      rw [put_entity_self]
      refine ⟨fun _ => hleft.residue rfl hset.residue, fun _ => ?_, nofun⟩
      rw [hleft.booking]
      rfl
    rw [if_neg hpol]
    have hb := hl.unbooked fun hc => hpol hc.2.1
    refine Kept.close ((h.open x).amend rfl rfl rfl rfl fun hsome => ?_) ?_
    · simp [hb] at hsome
    rw [put_entity_self]
    refine ⟨hset.residue, fun _ => ?_, nofun⟩
    rw [hb]
    rfl
  | some p =>
  have hp := hfree p rfl
  -- the token that is armed will not clear the governor's parameters
  have hopen : (if (w.entity x).armed && (some p).isSome then
      w.put x { w.entity x with inactiveClear := false } else w).Kept (some x) ∧ ∃ c,
      ((w.entity x).armed = true → c = false) ∧
      (if (w.entity x).armed && (some p).isSome then
        w.put x { w.entity x with inactiveClear := false } else w).entity x =
          { w.entity x with inactiveClear := c } := by
    rw [isSome_some, Bool.and_true]
    split_ifs with hno
    · exact ⟨(h.open x).amend rfl rfl rfl rfl fun _ => ⟨rfl, rfl⟩, false, fun _ => rfl,
        put_entity_self ..⟩
    · exact ⟨h.open x, _, fun harm => absurd harm hno, rfl⟩
  generalize (if (w.entity x).armed && (some p).isSome then
    w.put x { w.entity x with inactiveClear := false } else w) = w1 at hopen ⊢
  obtain ⟨hkept, c, hspare, hself⟩ := hopen
  have hfinish : ∀ w2 : DlWorld ε, w2.Kept (some x) → (w2.entity x).booking = none →
      ((w2.entity x).armed = true → (w2.entity x).inactiveClear = false) →
      ((w2.install x p).put x { (w2.install x p).entity x with policyDl := true }).Kept none := by
    intro w2 hk hb hclear
    obtain ⟨hk', hb', hres, hspecial, harm, hsame⟩ := hk.installFree hb hp
    refine Kept.close (hk'.amend rfl rfl rfl rfl fun hsome => ?_) ?_
    · simp [hb'] at hsome
    rw [put_entity_self]
    refine ⟨fun _ => hres, fun hz => ?_, fun _ _ ha => hsame.trans (hclear (harm ▸ ha))⟩
    rw [hb', hspecial hz]
    rfl
  have hsparing : (w1.entity x).armed = true → (w1.entity x).inactiveClear = false := by
    rwa [hself]
  unfold apply
  dsimp only
  split_ifs with hcond
  · have hleave := hkept.leaveClassFor (by
      rw [hself]
      exact fun hb hw => (hset.residue hb).of_empty hw) false z now
    refine hfinish _ hleave.1 hleave.2.booking fun ha => ?_
    rw [hleave.2.clears ha]
    split
    case isTrue harm => exact hsparing harm
    · rfl
  refine hfinish w1 hkept ?_ hsparing
  rw [hself] at hcond ⊢
  refine hl.unbooked fun hc => hcond ?_
  rw [hc.2.1, hc.2.2, hp]
  rfl

/-! ### Policy changes that book -/

omit [DecidableEq ε] in
/-- The bandwidth a request is weighed against is what the entity has booked. -/
theorem Kept.oldBooking_bw (h : w.Kept none) (hempty : (w.entity x).word = .empty) :
    oldBooking (w.entity x) =
        ((w.entity x).policyDl, (w.entity x).params.bw, (w.entity x).params.isSpecial) ∧
      (w.entity x).currentBw =
        if (w.entity x).policyDl && !(w.entity x).params.isSpecial then (w.entity x).params.bw
        else 0 := by
  constructor
  · rw [oldBooking, armed_of_empty hempty, if_neg Bool.false_ne_true]
  cases hb : (w.entity x).booking with
  | some =>
    obtain ⟨-, hpol, hord⟩ := (h.linked x).current (by rw [hb]; rfl)
    rw [currentBw_some hb, hpol, hord]
    rfl
  | none =>
  -- a dead task may keep its policy, but then nothing is left of its bandwidth
  rw [currentBw_none hb]
  have hres := (h.settled' x).residue hb
  rcases hres.of_empty hempty with hs | hbw
  · rw [hs, Bool.not_true, Bool.and_false, if_neg Bool.false_ne_true]
  · rw [hbw, ite_self]

omit [DecidableEq ε] in
/-- The plan for an ordinary request: it is refused, or the total moves by the difference. -/
theorem Kept.plan_ordinary (h : w.Kept none) (hempty : (w.entity x).word = .empty)
    (hord : p.isSpecial = false) (hbw : p.bw ≤ BW_UNIT) :
    let old := oldBooking (w.entity x)
    let plan := planTransition w.bw w.capacity w.total true old.1 old.2.1 p.bw old.2.2 p.isSpecial
    plan = .error .busy ∨ ∃ c t, plan = .ok c ∧ changedTotal w.total c = .ok t ∧
      t + (w.entity x).currentBw = w.total + p.bw ∧ t ≤ capScale w.bw w.capacity := by
  obtain ⟨hold, hcur⟩ := h.oldBooking_bw hempty
  have hle := h.reserved_le x
  have hsmall := h.total_lt hbw
  rw [hold]
  unfold planTransition
  rw [hord, hcur]
  dsimp only
  rw [hcur] at hle
  -- what a booking of `old` is replaced by, if the result fits
  have hmove : ∀ old, old ≤ w.total → ∀ f : ℕ → BwChange,
      changedTotal w.total (f p.bw) = replaced w.total old p.bw →
      let plan : Except LedgerStop BwChange := do
        let overflow ← dlOverflow w.bw w.capacity w.total old p.bw
        if overflow then .error .busy else .ok (f p.bw)
      plan = .error .busy ∨ ∃ c t, plan = .ok c ∧ changedTotal w.total c = .ok t ∧
        t + old = w.total + p.bw ∧ t ≤ capScale w.bw w.capacity := by
    intro old hold f hf
    rw [dlOverflow_eq_ok h.bw hold hsmall]
    by_cases hover : capScale w.bw w.capacity < w.total - old + p.bw
    · rw [decide_eq_true hover]
      exact .inl rfl
    rw [decide_eq_false hover]
    refine .inr ⟨f p.bw, w.total - old + p.bw, rfl, ?_, by omega, by omega⟩
    rw [hf, replaced_eq_ok hold hsmall]
  cases hhas : (w.entity x).policyDl && !(w.entity x).params.isSpecial with
  | false => exact hmove 0 (Nat.zero_le _) .add rfl
  | true =>
  rw [hhas, if_pos rfl] at hle
  by_cases hsame : p.bw = (w.entity x).params.bw
  · rw [hsame]
    simp only [beq_self_eq_true]
    exact .inr ⟨.none, w.total, rfl, rfl, rfl, h.fits⟩
  have hne : (p.bw == (w.entity x).params.bw) = false := beq_false_of_ne hsame
  rw [hne]
  exact hmove (w.entity x).params.bw (by omega) (.replace _) rfl

/-- An ordinary request of an entity without a token is refused or booked. -/
theorem Kept.inactiveAdmit_ordinary (h : w.Kept none) (hempty : (w.entity x).word = .empty)
    (hord : p.isSpecial = false) (hbw : p.bw ≤ BW_UNIT) :
    w.inactiveAdmit x true p = .error .busy ∨
      ∃ t, w.inactiveAdmit x true p = .ok ({ w with total := t }.book x false) ∧
        t + (w.entity x).currentBw = w.total + p.bw ∧ t ≤ capScale w.bw w.capacity := by
  rcases h.plan_ordinary hempty hord hbw with hbusy | ⟨c, t, hplan, hchange, hmoves, hfits⟩
  · unfold inactiveAdmit admitPending
    dsimp only
    rw [hbusy]
    exact .inl rfl
  refine .inr ⟨t, ?_, hmoves, hfits⟩
  have hpending : w.admitPending x true p = .ok ({ w with total := t }.useToken x true p) := by
    unfold admitPending
    dsimp only
    rw [hplan]
    show (changedTotal w.total c >>= fun total => _) = _
    rw [hchange]
    rfl
  have htoken : { w with total := t }.useToken x true p = ({ w with total := t }, .none) := by
    exact if_pos hempty
  rw [inactiveAdmit, hpending, htoken, hord]
  rfl

omit [Fintype ε] in
theorem book_eq (w : DlWorld ε) (x : ε) : ∃ k n, w.book x false =
      { w.put x { w.entity x with booking := some k } with nextBooking := n } ∧
      ∀ j, holds j { w.entity x with booking := some k } +
          (if j < w.nextBooking then 1 else 0) =
        (w.entity x).holds j + if j < n then 1 else 0 := by
  unfold book
  dsimp only
  cases hb : (w.entity x).booking with
  | some k =>
    have hsame : { w.entity x with booking := some k } = w.entity x := by rw [← hb]
    refine ⟨k, w.nextBooking, ?_, fun j => by rw [hsame]⟩
    unfold put
    rw [hsame, update_eq_self]
  | none =>
  refine ⟨w.nextBooking, w.nextBooking + 1, rfl, fun j => ?_⟩
  unfold holds
  rw [hb]
  simp only [Option.some.injEq, reduceCtorEq, if_false]
  have hnew : (if w.nextBooking = j then 1 else 0) + (if j < w.nextBooking then 1 else 0) =
      if j < w.nextBooking + 1 then 1 else 0 := by
    split <;> split <;> split <;> omega
  omega

omit [Fintype ε] in
theorem install_alive (p : DlParams) (hz : (w.entity x).zombie = false) :
    w.install x p = w.put x { w.entity x with params := p } := by
  rw [install, hz]
  rfl

omit [Fintype ε] in
theorem install_dead (hord : p.isSpecial = false) (hz : (w.entity x).zombie = true)
    (hle : p.bw ≤ w.total) (hb : (w.entity x).booking = some k) :
    w.install x p = { w.put x { w.entity x with params := .zero, booking := none } with
      total := w.total - p.bw, released := k :: w.released } := by
  have hrelease : (if !p.isSpecial && p.bw != 0 then w.release p.bw else w) =
      { w with total := w.total - p.bw } := by
    rw [hord]
    split_ifs with hzero
    · rw [release, if_neg (by omega)]
    have hbw : p.bw = 0 := by simpa using hzero
    rw [hbw]
    rfl
  rw [install, if_pos hz]
  rw [hrelease, clear_unbook_some (w := { w with total := w.total - p.bw }) hb]
  rfl

omit [Fintype ε] in
theorem apply_ordinary (w : DlWorld ε) (x : ε) (hord : p.isSpecial = false) (z now : BitVec 64) :
    w.apply x (some p) z now =
      (w.install x p).put x { (w.install x p).entity x with policyDl := true } := by
  unfold apply
  dsimp only
  rw [hord, Bool.and_false]
  rfl

section

variable (h : w.Kept none)
  (honce : ∀ j, holds j { w.entity x with booking := some k } +
    (if j < w.nextBooking then 1 else 0) = (w.entity x).holds j + if j < n then 1 else 0)
include h honce

/-- A task that lives holds its booking with the new parameters. -/
theorem Kept.installBooked (hempty : (w.entity x).word = .empty) (hord : p.isSpecial = false)
    (hmoves : t + (w.entity x).currentBw = w.total + p.bw) (hfits : t ≤ capScale w.bw w.capacity) :
    DlWorld.Kept { w.put x { w.entity x with booking := some k, params := p, policyDl := true } with
      total := t, nextBooking := n } none := by
  have hl := h.linked x
  refine Kept.close ((h.open x).rewrite rfl
    (hl.amend rfl rfl rfl fun _ => ⟨hempty, rfl, hord⟩) ?_ (fun j => ?_) hfits) ?_
  · show t + ((w.entity x).currentBw + _) = w.total + (p.bw + (w.entity x).departedBw)
    omega
  · have hj := honce j
    show holds j { w.entity x with booking := some k } + w.released.count j + _ =
      (w.entity x).holds j + w.released.count j + if j < n then 1 else 0
    omega
  rw [put_entity_self]
  refine ⟨nofun, fun _ => ?_, fun _ _ harm => ?_⟩
  · rw [hord]
    rfl
  · exact absurd (harm.symm.trans (armed_of_empty hempty)) Bool.true_eq_false_eq_False

/-- A task that is dead by now has given its booking back. -/
theorem Kept.installDead (hz : (w.entity x).zombie = true)
    (hmoves : t + (w.entity x).currentBw = w.total) :
    DlWorld.Kept
      { w.put x { w.entity x with booking := none, params := .zero, policyDl := true } with
        total := t, nextBooking := n, released := k :: w.released } none := by
  have hl := h.linked x
  have hfits := h.fits
  refine Kept.close ((h.open x).rewrite rfl
    (hl.amend rfl rfl rfl nofun) ?_ (fun j => ?_) (by omega)) ?_
  · show t + ((w.entity x).currentBw + _) = w.total + (0 + (w.entity x).departedBw)
    omega
  · have hj := honce j
    have hrel := holds_release (e := { w.entity x with booking := some k }) rfl .zero w.released j
    show holds j { w.entity x with booking := none, params := .zero } +
      (k :: w.released).count j + _ = (w.entity x).holds j + w.released.count j +
        if j < n then 1 else 0
    have hsame : holds j { w.entity x with booking := none, params := .zero } +
      (k :: w.released).count j = holds j { w.entity x with booking := some k } +
        w.released.count j := hrel
    omega
  rw [put_entity_self]
  have hdead : ∀ {q : Prop}, (w.entity x).zombie = false → q := fun hne => by
    cases hz.symm.trans hne
  exact ⟨fun _ => .inr (.inl rfl), hdead, hdead⟩

end

/-- **An ordinary policy change of an entity without a token.** -/
theorem Kept.policyOrdinary (h : w.Kept none) (hempty : (w.entity x).word = .empty)
    (hord : p.isSpecial = false) (hmoves : t + (w.entity x).currentBw = w.total + p.bw)
    (hfits : t ≤ capScale w.bw w.capacity) (z now : BitVec 64) :
    (({ w with total := t }.book x false).apply x (some p) z now).Kept none := by
  have hle := h.reserved_le x
  obtain ⟨k, n, hbook, honce⟩ := book_eq { w with total := t } x
  generalize hw1 : ({ w with total := t } : DlWorld ε).book x false = w1 at hbook ⊢
  have hself : w1.entity x = { w.entity x with booking := some k } := by
    rw [hbook]
    exact put_entity_self ..
  have htotal : w1.total = t := by rw [hbook]; rfl
  rw [apply_ordinary _ _ hord]
  cases hz : (w.entity x).zombie with
  | false =>
    rw [install_alive p (by rwa [hself]), put_entity_self, hself, hbook]
    unfold put
    rw [update_idem, update_idem]
    exact h.installBooked honce hempty hord hmoves hfits
  | true =>
  rw [install_dead hord (by rwa [hself]) (by omega) (by rw [hself]), hself, hbook]
  unfold put
  dsimp only
  rw [update_self, update_idem, update_idem]
  exact h.installDead honce hz (by omega)

/-! ### Events -/

/-- No ordinary request comes for an entity whose departed booking is still armed. -/
def NoReuse (w : DlWorld ε) : Event ε → Prop
  | .policy x (some r) allowed _ _ =>
    allowed = true → r.checkparam = true → r.params.isSpecial = false → (w.entity x).armed = false
  | _ => True

section

variable (h : w.Kept none)
include h

/-- **A policy change keeps the ledger**, unless it reuses a departed booking. -/
theorem Kept.policy {req : Option DlRequest} {allowed : Bool} {z now : BitVec 64}
    (hno : w.NoReuse (.policy x req allowed z now)) : (w.policy x req allowed z now).Kept none := by
  unfold DlWorld.policy
  by_cases hvalid : (!req.all DlRequest.checkparam) = true
  · rwa [if_pos hvalid]
  rw [if_neg hvalid]
  split
  · exact h
  by_cases hallowed : ((req.map DlRequest.params).isSome && !allowed) = true
  · rwa [if_pos hallowed]
  rw [if_neg hallowed]
  by_cases hord : ∃ r, req = some r ∧ r.params.isSpecial = false
  · obtain ⟨r, rfl, hord⟩ := hord
    have hcheck : r.checkparam = true := by simpa using hvalid
    have hempty := (h.linked x).word_eq_empty (hno (by simpa using hallowed) hcheck hord)
    rcases h.inactiveAdmit_ordinary hempty hord (DlRequest.bw_le hcheck hord) with
      hbusy | ⟨t, hadm, hmoves, hfits⟩
    · dsimp only [map_some, isSome_some, getD_some]
      rwa [hbusy]
    dsimp only [map_some, isSome_some, getD_some]
    rw [hadm]
    exact h.policyOrdinary hempty hord hmoves hfits z now
  have hfree : ∀ p, req.map DlRequest.params = some p → p.isSpecial = true := by
    intro p hp
    obtain ⟨r, hr, rfl⟩ := map_eq_some_iff.mp hp
    rw [← Bool.not_eq_false]
    exact fun hs => hord ⟨r, hr, hs⟩
  obtain ⟨w', hadm, hkept⟩ := h.policyFree hfree z now
  rwa [hadm]

/-- A task that dies keeps what it holds until it is scheduled out. -/
theorem Kept.exit : (w.put x { w.entity x with zombie := true }).Kept none := by
  have hset := h.settled' x
  refine Kept.close ((h.open x).amend rfl rfl rfl rfl fun _ => ⟨rfl, rfl⟩) ?_
  rw [put_entity_self]
  exact ⟨hset.residue, nofun, nofun⟩

theorem Kept.leave (hz : (w.entity x).zombie = true) (z now : BitVec 64) :
    (w.leaveClassFor x true z now).Kept none := by
  have hset := h.settled' x
  obtain ⟨hkept, hleft⟩ := (h.open x).leaveClassFor
    (fun hb hw => (hset.residue hb).of_empty hw) true z now
  have hdead : ∀ {q : Prop}, ((w.leaveClassFor x true z now).entity x).zombie = false → q :=
    fun hne => by
      rw [hleft.zombie, hz] at hne
      cases hne
  exact hkept.close ⟨fun _ => hleft.residue rfl hset.residue, hdead, hdead⟩

omit [DecidableEq ε] in
/-- The queue may lose a timer as long as the expiry stays known. -/
theorem Kept.requeue {queue : List ε} {popped : List (ε × ℕ)}
    (htimed : ∀ y g, (w.entity y).word = .armed g → y ∈ w.queue ∨ (y, g) ∈ w.popped →
      y ∈ queue ∨ (y, g) ∈ popped) :
    DlWorld.Kept { w with queue := queue, popped := popped } none :=
  { h with timed := fun y g hg => htimed y g hg (h.timed y g hg) }

omit [DecidableEq ε] in
theorem Kept.popDue (now : BitVec 64) : (w.popDue now).Kept none := by
  unfold DlWorld.popDue
  cases hq : w.queue with
  | nil => exact h
  | cons x rest =>
  dsimp only
  have hpop : ∀ g, (w.entity x).word = .armed g →
      DlWorld.Kept { w with queue := rest, popped := (x, g) :: w.popped } none := by
    intro g hword
    refine h.requeue fun y g' hg hy => ?_
    rw [hq] at hy
    rcases hy with hy | hy
    · rcases List.mem_cons.mp hy with rfl | hy
      · -- the generation is that of the token
        have hgen : g' = g := InactiveWord.armed.inj (hg.symm.trans hword)
        rw [hgen]
        exact .inr List.mem_cons_self
      · exact .inl hy
    · exact .inr (List.mem_cons_of_mem _ hy)
  cases hword : (w.entity x).word with
  | claimed g => exact absurd hword ((h.linked x).claimed g)
  | empty =>
    refine h.requeue fun y g hg hy => ?_
    rw [hq] at hy
    rcases hy with hy | hy
    · rcases List.mem_cons.mp hy with rfl | hy
      · cases hword.symm.trans hg
      · exact .inl hy
    · exact .inr hy
  | armed g =>
  dsimp only
  split
  · exact h
  · exact hpop g hword

end

/-- The entity after its token has expired. -/
def expired (e : DlEntity) : DlEntity :=
  { e with
    word := .empty
    params := if e.inactiveClear then .zero else e.params
    departed := none }

theorem expired_settled (h : e.Settled) (hb : e.booking = none) (ha : e.armed = true) :
    (expired e).Settled := by
  refine ⟨fun _ => ?_, fun hz => ?_, fun _ _ harm => ?_⟩
  · unfold expired
    rcases h.residue hb with hs | hbw | ⟨-, hc⟩
    · cases hc : e.inactiveClear with
      | true => exact .inr (.inl rfl)
      | false => exact .inl hs
    · cases hc : e.inactiveClear with
      | true => exact .inr (.inl rfl)
      | false => exact .inr (.inl hbw)
    · rw [hc]
      exact .inr (.inl rfl)
  · -- parameters that are cleared are not those of a deadline task
    have hord := h.ordinary hz
    have hspared := h.spared hz
    unfold expired
    rw [hb] at hord ⊢
    cases hpol : e.policyDl with
    | false => rfl
    | true =>
      rwa [hspared hpol ha, if_neg Bool.false_ne_true, ← hpol]
  · cases harm

theorem holds_expired {b : ℕ} (hd : e.departed = some (k, b)) (released : List ℕ) (k' : ℕ) :
    (expired e).holds k' + (k :: released).count k' = e.holds k' + released.count k' := by
  unfold holds expired
  rw [hd]
  by_cases hk : k = k'
  · simp [hk]
    omega
  · simp [hk]

/-- An expiry that still finds its generation releases the departed booking. -/
theorem Kept.expireClaim (h : w.Kept none) (g : ℕ) : (w.expireClaim x g).Kept none := by
  unfold DlWorld.expireClaim
  dsimp only
  by_cases hword : (w.entity x).word = .armed g
  · rw [if_neg (not_not.mpr hword)]
    have hl := h.linked x
    have hset := h.settled' x
    have hb := hl.booking_eq_none hword
    obtain ⟨k, hd⟩ := hl.armed g hword
    have hdep : (w.entity x).departedBw = (w.entity x).inactiveBw := by
      rw [departedBw, hd]
      rfl
    have hle := h.reserved_le x
    rw [if_neg (by omega)]
    rw [unbookDeparted, put_entity_self]
    rw [hd]
    unfold put
    dsimp only
    rw [update_idem]
    refine Kept.close ((h.open x).change rfl rfl ⟨?_, fun _ => rfl, ?_, ?_⟩ ?_
      (fun j => congrArg (· + _) (holds_expired hd w.released j)) (fun _ _ hy => hy) ?_ ?_ h.sound
      (Nat.le_trans (Nat.sub_le _ _) h.fits)) ?_
    · intro hsome
      simp [hb] at hsome
    · intro g' hg
      cases hg
    · intro g' hg
      cases hg
    · have hnone : (expired (w.entity x)).currentBw = 0 := currentBw_none hb
      rw [currentBw_none hb, hdep]
      show w.total - (w.entity x).inactiveBw + (0 + (w.entity x).inactiveBw) =
        w.total + ((expired (w.entity x)).currentBw + 0)
      omega
    · intro y g' hy hmem
      exact (List.mem_erase_of_ne fun heq => hy (Prod.mk.inj heq).1).mpr hmem
    · intro g' hg
      cases hg
    show DlEntity.Settled (update w.entity x (expired (w.entity x)) x)
    rw [update_self]
    exact expired_settled hset hb (armed_of_armed hword)
  rw [if_pos hword]
  refine h.requeue fun y g' hg hy => hy.imp_right fun hmem => ?_
  have hne : (y, g') ≠ (x, g) := fun heq => by
    cases heq
    exact hword hg
  exact (List.mem_erase_of_ne hne).mpr hmem

omit [DecidableEq ε] in
/-- A CPU leaves only if the others can serve the total. -/
theorem Kept.offline (h : w.Kept none) (cpu : Fin MAX_CPUS) : (w.tryMarkOffline cpu).Kept none := by
  unfold tryMarkOffline
  by_cases hcpu : cpu ∉ w.online
  · rwa [if_pos hcpu]
  rw [if_neg hcpu]
  have hsmall := h.total_lt (Nat.zero_le _)
  have hcap : DlWorld.capacity { w with online := w.online.erase cpu } =
      capacityOf (w.online.card - 1) := by
    rw [capacity, Finset.card_erase_of_mem (not_not.mp hcpu)]
  by_cases hzero : w.total = 0
  · rw [if_pos hzero]
    exact { h with fits := by rw [hzero]; exact Nat.zero_le _ }
  rw [if_neg hzero]
  split
  · exact h
  rw [dlOverflow_eq_ok h.bw (Nat.zero_le _) hsmall]
  by_cases hover : capScale w.bw (capacityOf (w.online.card - 1)) < w.total - 0 + 0
  · rwa [decide_eq_true hover]
  rw [decide_eq_false hover]
  refine { h with fits := ?_ }
  rw [hcap]
  exact Nat.le_of_not_lt hover

/-- **Every event keeps the ledger**, unless it reuses a departed booking. -/
theorem Kept.step (h : w.Kept none) {e : Event ε} (hno : w.NoReuse e) : (w.step e).Kept none := by
  unfold DlWorld.step
  rw [if_neg (by rw [h.sound]; exact Bool.false_ne_true)]
  cases e with
  | policy => exact h.policy hno
  | exit => exact h.exit
  | leave x =>
    dsimp only
    split_ifs with hz
    · exact h.leave hz ..
    · exact h
  | popDue => exact h.popDue ..
  | expireClaim x g =>
    dsimp only
    split
    · exact h.expireClaim g
    · exact h
  | offline => exact h.offline ..

omit [DecidableEq ε] in
theorem start_kept (online : Finset (Fin MAX_CPUS)) : (start online : DlWorld ε).Kept none where
  linked := fun _ => ⟨nofun, fun _ => rfl, nofun, nofun⟩
  settled := fun _ _ => ⟨fun _ => .inr (.inl rfl), fun _ => rfl, nofun⟩
  bw := rfl
  balanced := (Finset.sum_eq_zero fun _ _ => rfl).symm
  once := fun k => by
    show ∑ _y : ε, 0 + 0 = if k < 0 then 1 else 0
    rw [Finset.sum_const_zero, if_neg (Nat.not_lt_zero k)]
  timed := nofun
  sound := rfl
  fits := Nat.zero_le _

/-- **The bandwidth ledger.**  In a run in which no ordinary request comes for an entity whose
departed booking is still armed, the ledger is accounted for in every state. -/
theorem accounted_of_noReuse (online : Finset (Fin MAX_CPUS)) (events : List (Event ε))
    (h : Run.Meets DlWorld.step NoReuse (start online) events) :
    Run.Always DlWorld.step Accounted (start online) events :=
  Run.Meets.always (I := fun w => w.Kept none) (fun _ _ hk hno => hk.step hno) (start_kept online) h
    fun _ hk => hk.accounted

/-! ### A departed booking that is reused -/

/-- 5 ms every 10 ms. -/
def halfCpu : DlRequest := ⟨5000000, 10000000, 10000000, 0⟩

/-- 1 ms every 10 ms. -/
def tenthCpu : DlRequest := ⟨1000000, 10000000, 10000000, 0⟩

/-- 2 ms every 10 ms. -/
def fifthCpu : DlRequest := ⟨2000000, 10000000, 10000000, 0⟩

def fourCpus : Finset (Fin MAX_CPUS) :=
  {⟨0, by decide⟩, ⟨1, by decide⟩, ⟨2, by decide⟩, ⟨3, by decide⟩}

/-- A task enters the class, leaves it with its zero-lag instant ahead, the timer expires, and the
task enters again. -/
def leaveAndReturn : List (Event (Fin 1)) :=
  [.policy 0 (some halfCpu) true 0 0, .policy 0 none true 100 50, .popDue 200, .expireClaim 0 1,
    .policy 0 (some tenthCpu) true 0 300]

theorem leaveAndReturn_accounted :
    Run.Always DlWorld.step Accounted (start fourCpus) leaveAndReturn :=
  accounted_of_noReuse _ _ (by
    refine ⟨fun _ _ _ => rfl, trivial, trivial, trivial, fun _ _ _ => ?_, trivial⟩
    decide)

/-- A task enters the class, leaves it with its zero-lag instant ahead, enters again before that
instant, and changes its reservation. -/
def returnEarly : List (Event (Fin 1)) :=
  [.policy 0 (some halfCpu) true 0 0, .policy 0 none true 100 50,
    .policy 0 (some tenthCpu) true 0 60, .policy 0 (some fifthCpu) true 0 70]

/-- **A reused booking leaves its token armed**, and the next policy change subtracts the departed
bandwidth from a total that does not hold it any more. -/
theorem reuse_panics : ¬ Run.Always DlWorld.step Accounted (start fourCpus) returnEarly := by
  intro h
  have hpanic : (returnEarly.foldl DlWorld.step (start fourCpus)).panicked = true := by decide
  exact Bool.true_eq_false_eq_False (hpanic.symm.trans h.last.sound)

end DlWorld

end Oxide
