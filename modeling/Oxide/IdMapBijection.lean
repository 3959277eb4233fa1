/-
An accepted id map is a partial bijection, except that it may map the invalid id.

* `toHostChecked_eq_some_comm`: the two lookups of an accepted map are inverse to each other;
* `MapContract`: what a batch of extents should be: accepted exactly if it is in order below the
  invalid id, and then a partial bijection off that id;
* `mapContract_iff`: **it holds exactly if a batch that is otherwise in order ends below the
  invalid id**;
* `invalid_mapped`: one extent that maps it.
-/
import Oxide.IdMap

namespace Oxide

open List

variable {extents : List IdMapExtent} {e : IdMapExtent} {id host : UInt32} {bound : ℕ}

/-- The namespace id of a host id, `none` where no extent covers it. -/
def toNsChecked (map : List IdMapExtent) (hostId : UInt32) : Option UInt32 :=
  map.findSome? fun e =>
    if e.hostId ≤ hostId ∧ hostId - e.hostId < e.count then some (e.nsId + (hostId - e.hostId))
    else none

def hasMapping (map : List IdMapExtent) (hostId : UInt32) : Bool :=
  map.any fun e => decide (e.hostId ≤ hostId ∧ hostId - e.hostId < e.count)

/-- The lookup from the host is the lookup in the extents read from the host's side. -/
theorem toNsChecked_eq : toNsChecked extents host = toHostChecked (extents.map .swap) host := by
  rw [toHostChecked, findSome?_map]
  rfl

theorem Fit.swap (h : Fit bound extents) : Fit bound (extents.map .swap) where
  ne_nil := by simpa using h.ne_nil
  length_le := by simpa using h.length_le
  below := by
    intro e he
    obtain ⟨a, ha, rfl⟩ := mem_map.mp he
    obtain ⟨h1, h2, h3⟩ := h.below a ha
    exact ⟨h1, h3, h2⟩
  apart := pairwise_map.mpr (h.apart.imp fun hs hs' => hs hs'.symm)

/-- The addition of the lookup does not overflow. -/
theorem toNat_hostOf (h : e.Below (2 ^ 32)) (hc : e.Covers id) :
    e.hostId.toNat + (id - e.nsId).toNat < 2 ^ 32 ∧
      (e.hostOf id).toNat + e.nsId.toNat = e.hostId.toNat + id.toNat := by
  obtain ⟨h1, h2⟩ := hc
  have hfit := h.2.2
  have hsub := UInt32.toNat_sub_of_le id e.nsId (UInt32.le_iff_toNat_le.mpr h1)
  rw [IdMapExtent.hostOf, UInt32.toNat_add]
  omega

/-- An extent and the same extent from the host's side undo each other. -/
theorem covers_hostOf (h : e.Below (2 ^ 32)) (hc : e.Covers id) :
    e.swap.Covers (e.hostOf id) ∧ e.swap.hostOf (e.hostOf id) = id := by
  have hval := (toNat_hostOf h hc).2
  have hcov : e.swap.Covers (e.hostOf id) := by
    obtain ⟨h1, h2⟩ := hc
    show e.hostId.toNat ≤ _ ∧ _ < e.hostId.toNat + e.count.toNat
    omega
  have hback := (toNat_hostOf (e := e.swap) ⟨h.1, h.2.2, h.2.1⟩ hcov).2
  refine ⟨hcov, UInt32.toNat_inj.mp ?_⟩
  simp only [IdMapExtent.swap] at hback ⊢
  omega

/-- One half of the inversion; the other is that of the extents read from the host's side. -/
theorem toNsChecked_of_toHostChecked (h : Fit (2 ^ 32) extents)
    (hid : toHostChecked extents id = some host) : toNsChecked extents host = some id := by
  obtain ⟨e, he, hc, rfl⟩ := exists_of_toHostChecked hid
  obtain ⟨hcov, hback⟩ := covers_hostOf (h.below e he) hc
  have hvalid := validateExtents_ok (validateExtents_eq_ok_iff.mpr h.swap)
  rw [toNsChecked_eq, hvalid.toHostChecked_eq_some_iff]
  exact ⟨e.swap, mem_map_of_mem he, hcov, hback.symm⟩

/-- **The lookups of an accepted map are inverse to each other.** -/
theorem toHostChecked_eq_some_comm (h : Fit (2 ^ 32) extents) :
    toHostChecked extents id = some host ↔ toNsChecked extents host = some id := by
  refine ⟨toNsChecked_of_toHostChecked h, fun hns => ?_⟩
  rw [toNsChecked_eq] at hns
  have hback := toNsChecked_of_toHostChecked h.swap hns
  rw [toNsChecked_eq, map_map] at hback
  exact (map_id extents ▸ hback :)

theorem hasMapping_iff : hasMapping extents host = true ↔ (toNsChecked extents host).isSome := by
  rw [hasMapping, toNsChecked, any_eq_true, findSome?_isSome_iff]
  refine exists_congr fun e => and_congr_right fun _ => ?_
  split <;> simp_all

theorem ne_invalid (hc : e.Covers id) (h : e.nsId.toNat + e.count.toNat ≤ 2 ^ 32 - 1) :
    id ≠ INVALID_ID := by
  rintro rfl
  have hlast : INVALID_ID.toNat = 2 ^ 32 - 1 := rfl
  have := hc.2
  omega

/-- What a batch of extents should be: accepted exactly if it is in order for the ids below the
invalid one, and then a partial bijection off the invalid id, computed without overflow. -/
structure MapContract (extents : List IdMapExtent) : Prop where
  rejected : validateExtents extents ≠ .ok () ↔ ¬ Fit (2 ^ 32 - 1) extents
  inverse : validateExtents extents = .ok () → ∀ id host,
    toHostChecked extents id = some host ↔ toNsChecked extents host = some id
  exact : validateExtents extents = .ok () → ∀ e ∈ extents, ∀ id,
    (e.Covers id → e.hostId.toNat + (id - e.nsId).toNat < 2 ^ 32) ∧
      (e.swap.Covers id → e.nsId.toNat + (id - e.hostId).toNat < 2 ^ 32)
  domain : validateExtents extents = .ok () → ∀ host,
    hasMapping extents host = true ↔ (toNsChecked extents host).isSome
  valid : validateExtents extents = .ok () → ∀ id host,
    toHostChecked extents id = some host → id ≠ INVALID_ID ∧ host ≠ INVALID_ID

/-- **The contract holds exactly if a batch that is otherwise in order ends below the invalid
id.** -/
theorem mapContract_iff :
    MapContract extents ↔ (Fit (2 ^ 32) extents → ∀ e ∈ extents, e.Below (2 ^ 32 - 1)) := by
  constructor
  · intro h hf
    by_contra hno
    exact h.rejected.mpr (fun hfit => hno hfit.below) (validateExtents_eq_ok_iff.mpr hf)
  intro h
  have hfit : validateExtents extents = .ok () ↔ Fit (2 ^ 32 - 1) extents := by
    rw [validateExtents_eq_ok_iff]
    refine ⟨fun hf => { hf with below := h hf }, fun hf => { hf with below := fun e he => ?_ }⟩
    obtain ⟨h1, h2, h3⟩ := hf.below e he
    exact ⟨h1, by omega, by omega⟩
  refine ⟨not_congr hfit, fun hok id host => ?_, fun hok e he id => ?_, fun _ _ => hasMapping_iff,
    fun hok id host hid => ?_⟩ <;> have hf := validateExtents_eq_ok_iff.mp hok
  · exact toHostChecked_eq_some_comm hf
  · obtain ⟨h1, h2, h3⟩ := hf.below e he
    exact ⟨fun hc => (toNat_hostOf ⟨h1, h2, h3⟩ hc).1,
      fun hc => (toNat_hostOf (e := e.swap) ⟨h1, h3, h2⟩ hc).1⟩
  obtain ⟨e, he, hc, rfl⟩ := exists_of_toHostChecked hid
  obtain ⟨-, h2, h3⟩ := h hf e he
  exact ⟨ne_invalid hc h2, ne_invalid (covers_hostOf (hf.below e he) hc).1 h3⟩

/-- An extent of one id, the invalid one. -/
theorem invalid_mapped : ¬ MapContract [⟨INVALID_ID, 0, 1⟩] := fun h =>
  (h.valid (by decide) INVALID_ID 0 (by decide)).1 rfl

end Oxide
