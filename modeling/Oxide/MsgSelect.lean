/-
Which message a receive selects.

`find_msg` makes one pass over the queue. For a negative type it keeps the best message so far and
narrows its bound to the types below it, so that only a better one can replace it.

* `prescribed`: the message `msgrcv(2)` prescribes;
* `findFrom_lessEqual`: the pass that narrows its bound finds the first message of the least type;
* `findMsg_prescribed`: **`convert_mode` and `find_msg` select the prescribed message**.
-/
import Oxide.MsgQueue

namespace Oxide

open List

variable {msgs : List Msg} {i : ℕ} {count t : Int} {found : Option ℕ}

/-- The index of the message that `msgrcv(2)` prescribes.  The absolute value of the least `long`
bounds nothing. -/
def prescribed (msgs : List Msg) (msgtyp : Int) (msgflg : BitVec 32) : Option ℕ :=
  let within (m : Msg) : Prop := msgtyp = -2 ^ 63 ∨ m.mtype ≤ -msgtyp
  if hasFlag msgflg MSG_COPY then
    if 0 ≤ msgtyp ∧ msgtyp < msgs.length then some msgtyp.toNat else none
  else if msgtyp = 0 then msgs.findIdx? fun _ => true
  else if 0 < msgtyp then
    if hasFlag msgflg MSG_EXCEPT then msgs.findIdx? (·.mtype ≠ msgtyp)
    else msgs.findIdx? (·.mtype = msgtyp)
  else msgs.findIdx? fun m => within m ∧ ∀ x ∈ msgs, within x → m.mtype ≤ x.mtype

/-- The modes that take the first message that passes the test. -/
theorem findFrom_first {mode : Search} (h1 : mode ≠ .lessEqual) (h2 : mode ≠ .number) :
    (findFrom mode msgs i count t none).1 =
      (msgs.findIdx? fun m => testmsg m.mtype t mode).map (i + ·) := by
  induction msgs generalizing i with
  | nil => rfl
  | cons m ms ih =>
  rw [findFrom, findIdx?_cons]
  cases testmsg m.mtype t mode with
  | true => simp [h1, h2]
  | false => simp [ih, Function.comp_def, Nat.add_assoc, Nat.add_comm 1]

/-- The mode that counts. -/
theorem findFrom_number :
    (findFrom .number msgs i count t none).1 =
      if count ≤ t ∧ t < count + msgs.length then some (i + (t - count).toNat) else none := by
  induction msgs generalizing i count with
  | nil => rw [findFrom, if_neg (by simp)]
  | cons m ms ih =>
  rw [findFrom, if_neg (by simp [testmsg]), if_neg (by simp), if_pos rfl, length_cons]
  by_cases h : t = count
  · rw [if_pos h, if_pos (by omega), h, Int.sub_self]
    rfl
  rw [if_neg h, ih]
  by_cases hin : count + 1 ≤ t ∧ t < count + 1 + ms.length
  · rw [if_pos hin, if_pos (by omega)]
    congr 1
    omega
  · rw [if_neg hin, if_neg (by omega)]

/-- The pass that narrows its bound finds the first message of the least type. -/
theorem findFrom_lessEqual (h : ∀ m ∈ msgs, 1 ≤ m.mtype) :
    ((findFrom .lessEqual msgs i count t found).1 = found ∧ ∀ m ∈ msgs, t < m.mtype) ∨
    ∃ pre m post, msgs = pre ++ m :: post ∧ m.mtype ≤ t ∧
      (findFrom .lessEqual msgs i count t found).1 = some (i + pre.length) ∧
      (∀ x ∈ pre, m.mtype < x.mtype) ∧ ∀ x ∈ post, m.mtype ≤ x.mtype := by
  induction msgs generalizing i count t found with
  | nil => exact .inl ⟨rfl, by simp⟩
  | cons m ms ih =>
  obtain ⟨hm, hms⟩ := forall_mem_cons.mp h
  rw [findFrom]
  by_cases hle : m.mtype ≤ t
  · rw [if_neg (by simp [testmsg, hle])]
    by_cases hone : m.mtype = 1
    · -- no type is less
      rw [if_neg (by simp [hone])]
      exact .inr ⟨[], m, ms, rfl, hle, rfl, by simp, fun x hx => hone ▸ hms x hx⟩
    rw [if_pos ⟨rfl, hone⟩]
    rcases ih hms with ⟨hr, hall⟩ | ⟨pre, m', post, rfl, hle', hr, hpre, hpost⟩
    · refine .inr ⟨[], m, ms, rfl, hle, hr, by simp, fun x hx => ?_⟩
      have := hall x hx
      omega
    · refine .inr ⟨m :: pre, m', post, rfl, by omega, hr.trans (by simp; omega), ?_, hpost⟩
      exact forall_mem_cons.mpr ⟨by omega, hpre⟩
  rw [if_pos (by simp [testmsg, hle])]
  rcases ih hms with ⟨hr, hall⟩ | ⟨pre, m', post, rfl, hle', hr, hpre, hpost⟩
  · exact .inl ⟨hr, forall_mem_cons.mpr ⟨by omega, hall⟩⟩
  · refine .inr ⟨m :: pre, m', post, rfl, hle', hr.trans (by simp; omega), ?_, hpost⟩
    exact forall_mem_cons.mpr ⟨by omega, hpre⟩

/-- **`convert_mode` and `find_msg` select the prescribed message.** -/
theorem findMsg_prescribed (msgs : List Msg) (h : ∀ m ∈ msgs, 1 ≤ m.mtype ∧ m.mtype < 2 ^ 63)
    (msgtyp : Int) (msgflg : BitVec 32) :
    (findMsg msgs (convertMode msgtyp msgflg).2 (convertMode msgtyp msgflg).1).1 =
      prescribed msgs msgtyp msgflg := by
  rw [findMsg, convertMode, prescribed]
  by_cases hcopy : hasFlag msgflg MSG_COPY = true
  · simp [hcopy, findFrom_number]
  by_cases hzero : msgtyp = 0
  · simp [hcopy, hzero, findFrom_first, testmsg]
  by_cases hpos : 0 < msgtyp
  · have hneg : ¬ msgtyp < 0 := by omega
    by_cases hexc : hasFlag msgflg MSG_EXCEPT = true
    · simp [hcopy, hzero, hpos, hneg, hexc, findFrom_first, testmsg]
    · simp [hcopy, hzero, hpos, hneg, hexc, findFrom_first, testmsg]
  rw [if_neg hcopy, if_neg hcopy, if_neg hzero, if_neg hzero, if_pos (by omega), if_neg hpos]
  have hwithin : ∀ m ∈ msgs, (msgtyp = -2 ^ 63 ∨ m.mtype ≤ -msgtyp) ↔
      m.mtype ≤ if msgtyp = -2 ^ 63 then 2 ^ 63 - 1 else -msgtyp := by
    intro m hm
    have := (h m hm).2
    split_ifs
    · omega
    · omega
  rcases findFrom_lessEqual fun m hm => (h m hm).1 with ⟨hr, hall⟩ |
    ⟨pre, m, post, rfl, hle, hr, hpre, hpost⟩
  · rw [hr]
    refine (findIdx?_eq_none_iff.mpr fun m hm => decide_eq_false fun hp => ?_).symm
    exact Int.not_le.mpr (hall m hm) ((hwithin m hm).mp hp.1)
  have hm : m ∈ pre ++ m :: post := by simp
  have hmin : ∀ x ∈ pre ++ m :: post, m.mtype ≤ x.mtype := by
    simp only [mem_append, mem_cons]
    rintro x (hx | rfl | hx)
    · exact Int.le_of_lt (hpre x hx)
    · exact Int.le_refl _
    · exact hpost x hx
  rw [hr, findIdx?_append, findIdx?_eq_none_iff.mpr, findIdx?_cons, if_pos]
  · simp
  · exact decide_eq_true ⟨(hwithin m hm).mpr hle, fun x hx _ => hmin x hx⟩
  · exact fun x hx => decide_eq_false fun hp =>
      Int.not_le.mpr (hpre x hx) (hp.2 m hm ((hwithin m hm).mpr hle))

/-- Of the types 3, 2 and 2, the bound 5 selects the first 2. -/
theorem threeMsgs_prescribed :
    let msgs : List Msg := [⟨3, [], 0⟩, ⟨2, [], 0⟩, ⟨2, [], 0⟩]
    (findMsg msgs (convertMode (-5) 0).2 (convertMode (-5) 0).1).1 = prescribed msgs (-5) 0 ∧
      prescribed msgs (-5) 0 = some 1 :=
  ⟨findMsg_prescribed _ (by decide) (-5) 0, by decide⟩

end Oxide
