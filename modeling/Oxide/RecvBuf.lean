/-
The receive buffer of a TCP connection.

The bytes that are in order and unread are kept in pages. A page is filled at its end and read at
its start; a page that has been read is dropped.

* `RecvPage`, `RecvBuf`: the pages, with their bookkeeping as part of the type;
* `pushPayload`, `bytes`, `consume`, `remove`: the operations of the source;
* `contents_pushPayload`, `bytes_eq`, `contents_consume`, `contents_remove`: **the pages are one
  list of bytes**: the operations append, read, drop and delete there.

Design notes: the frame that backs a page in a kernel build is the list `bytes`; the arrival stamps
of the bytes are left out.
-/
import Mathlib.Algebra.BigOperators.Group.List.Basic
import Mathlib.Algebra.Ring.Nat

namespace Oxide

open List

def RECV_PAGE : ℕ := 4096

/-- One page of the receive stream. -/
structure RecvPage where
  bytes : List UInt8
  start : ℕ
  len : ℕ
  /-- The page is filled up to its last unread byte. -/
  used : start + len = bytes.length
  fits : bytes.length ≤ RECV_PAGE

namespace RecvPage

variable (p : RecvPage)

/-- The unread bytes. -/
def contents : List UInt8 := p.bytes.drop p.start

@[simp] theorem length_contents : p.contents.length = p.len := by
  rw [contents, length_drop, ← p.used, Nat.add_sub_cancel_left]

variable (payload : List UInt8)

/-- A fresh page, with as much of the payload as it holds. -/
def new : RecvPage where
  bytes := payload.take RECV_PAGE
  start := 0
  len := (payload.take RECV_PAGE).length
  used := Nat.zero_add _
  fits := by
    rw [length_take]
    exact Nat.min_le_left _ _

/-- The room at the end of a page. -/
def room : ℕ := RECV_PAGE - (p.start + p.len)

/-- Fill a page at its end, with as much of the payload as there is room for. -/
def append : RecvPage where
  bytes := p.bytes ++ payload.take p.room
  start := p.start
  len := p.len + (payload.take p.room).length
  used := by
    rw [length_append, ← p.used]
    omega
  fits := by
    have hfits := p.fits
    have hused := p.used
    rw [length_append, length_take, room]
    omega

/-- Read a page at its start. -/
def advance (take : ℕ) : RecvPage where
  bytes := p.bytes
  start := p.start + min take p.len
  len := p.len - take
  used := by
    have hused := p.used
    omega
  fits := p.fits

/-- Delete one byte of a page. -/
def remove (offset : ℕ) (h : offset < p.len) : RecvPage where
  bytes := p.bytes.eraseIdx (p.start + offset)
  start := p.start
  len := p.len - 1
  used := by
    have hused := p.used
    rw [length_eraseIdx_of_lt (by omega)]
    omega
  fits := by
    have hused := p.used
    have hfits := p.fits
    rw [length_eraseIdx_of_lt (by omega)]
    omega

theorem contents_new : (new payload).contents = payload.take RECV_PAGE := rfl

theorem contents_append : (p.append payload).contents = p.contents ++ payload.take p.room := by
  have hstart : p.start ≤ p.bytes.length := p.used ▸ Nat.le_add_right _ _
  exact drop_append_of_le_length hstart

theorem contents_advance (take : ℕ) : (p.advance take).contents = p.contents.drop take := by
  have hused := p.used
  show p.bytes.drop (p.start + min take p.len) = (p.bytes.drop p.start).drop take
  rw [drop_drop]
  rcases Nat.le_total take p.len with h | h
  · rw [Nat.min_eq_left h]
  · rw [Nat.min_eq_right h, drop_of_length_le (by omega), drop_of_length_le (by omega)]

theorem contents_remove (offset : ℕ) (h : offset < p.len) :
    (p.remove offset h).contents = p.contents.eraseIdx offset := by
  have hused := p.used
  show (p.bytes.eraseIdx (p.start + offset)).drop p.start = (p.bytes.drop p.start).eraseIdx offset
  rw [eraseIdx_eq_take_drop_succ, eraseIdx_eq_take_drop_succ,
    drop_append_of_le_length (by rw [length_take]; omega), drop_take, drop_drop]
  congr 2
  omega

end RecvPage

/-- The receive stream: its pages, and the number of its bytes. -/
structure RecvBuf where
  pages : List RecvPage
  len : ℕ
  len_eq : len = (pages.map RecvPage.len).sum

namespace RecvBuf

def empty : RecvBuf := ⟨[], 0, rfl⟩

variable (pages : List RecvPage)

/-- The unread bytes of a list of pages. -/
def contentsOf : List UInt8 := pages.flatMap RecvPage.contents

variable (b : RecvBuf)
variable (payload : List UInt8)

/-- The unread bytes. -/
def contents : List UInt8 := contentsOf b.pages

theorem length_contentsOf :
    (contentsOf pages).length = (pages.map RecvPage.len).sum := by
  induction pages with
  | nil => rfl
  | cons p rest ih =>
  rw [contentsOf, flatMap_cons, length_append, RecvPage.length_contents, map_cons, sum_cons, ← ih]
  rfl

@[simp] theorem length_contents : b.contents.length = b.len := by
  rw [contents, length_contentsOf, b.len_eq]

/-! ### Filling -/

/-- Fill the last page; the pages, and what is left of the payload. -/
def appendLast : List RecvPage → List UInt8 → List RecvPage × List UInt8
  | [], payload => ([], payload)
  | [p], payload => ([p.append payload], payload.drop p.room)
  | p :: q :: rest, payload =>
    let r := appendLast (q :: rest) payload
    (p :: r.1, r.2)

/-- The payload in pages of its own. -/
def chunks : ℕ → List UInt8 → List RecvPage
  | 0, _ => []
  | fuel + 1, payload =>
    if payload = [] then [] else .new payload :: chunks fuel (payload.drop RECV_PAGE)

theorem contentsOf_appendLast :
    contentsOf (appendLast pages payload).1 ++ (appendLast pages payload).2 =
      contentsOf pages ++ payload := by
  induction pages with
  | nil => rfl
  | cons p rest ih =>
  cases rest with
  | nil =>
    show (RecvPage.contents (p.append payload) ++ []) ++ payload.drop p.room =
      (p.contents ++ []) ++ payload
    rw [RecvPage.contents_append, append_nil, append_nil, append_assoc, take_append_drop]
  | cons q rest =>
    show (p.contents ++ contentsOf (appendLast (q :: rest) payload).1) ++
      (appendLast (q :: rest) payload).2 = (p.contents ++ contentsOf (q :: rest)) ++ payload
    rw [append_assoc, ih, append_assoc]

/-- A page takes at least one byte, so there is a page for every byte. -/
theorem contentsOf_chunks (fuel : ℕ) (payload : List UInt8) (h : payload.length ≤ fuel) :
    contentsOf (chunks fuel payload) = payload := by
  induction fuel generalizing payload with
  | zero =>
    rw [length_eq_zero_iff.mp (Nat.le_zero.mp h)]
    rfl
  | succ fuel ih =>
  rw [chunks]
  split_ifs with hnil
  · rw [hnil]
    rfl
  show RecvPage.contents (.new payload) ++ contentsOf (chunks fuel _) = payload
  rw [ih _ (by rw [length_drop]; unfold RECV_PAGE; omega), RecvPage.contents_new, take_append_drop]

/-- The pages after a payload has been pushed. -/
def pushPages : List RecvPage :=
  let r := appendLast pages payload
  r.1 ++ chunks r.2.length r.2

theorem contentsOf_pushPages :
    contentsOf (pushPages pages payload) = contentsOf pages ++ payload := by
  rw [pushPages, contentsOf, flatMap_append]
  show contentsOf _ ++ contentsOf _ = _
  rw [contentsOf_chunks _ _ (Nat.le_refl _), contentsOf_appendLast]

/-- `push_payload`. -/
def pushPayload : RecvBuf where
  pages := pushPages b.pages payload
  len := b.len + payload.length
  len_eq := by
    rw [← length_contentsOf, contentsOf_pushPages, length_append, length_contentsOf, b.len_eq]

/-- **A payload is appended to the stream.** -/
@[simp] theorem contents_pushPayload :
    (b.pushPayload payload).contents = b.contents ++ payload :=
  contentsOf_pushPages b.pages payload

/-! ### Reading -/

/-- The loop of `bytes`: `skip` bytes are passed over, `max` bytes are still wanted. -/
def bytesFrom : List RecvPage → ℕ → ℕ → List UInt8
  | [], _, _ => []
  | p :: rest, skip, max =>
    if p.len ≤ skip then bytesFrom rest (skip - p.len) max
    else
      let take := min (p.len - skip) max
      let out := (p.contents.drop skip).take take
      if take = max then out else out ++ bytesFrom rest 0 (max - take)

def bytes (offset max : ℕ) : List UInt8 := bytesFrom b.pages offset max

theorem contentsOf_cons (p : RecvPage) (rest : List RecvPage) :
    contentsOf (p :: rest) = p.contents ++ contentsOf rest := rfl

theorem bytesFrom_eq (skip max : ℕ) :
    bytesFrom pages skip max = ((contentsOf pages).drop skip).take max := by
  induction pages generalizing skip max with
  | nil => simp [bytesFrom, contentsOf]
  | cons p rest ih =>
  have hlen := p.length_contents
  rw [bytesFrom, contentsOf_cons]
  split
  case isTrue =>
    have hpast : p.contents.drop skip = [] := drop_of_length_le (by omega)
    rw [ih, drop_append, hpast, nil_append, hlen]
  have hdrop : (p.contents.drop skip).length = p.len - skip := by
    rw [length_drop, hlen]
  rw [drop_append_of_le_length (by omega), take_append, hdrop]
  dsimp only
  split_ifs with hall
  · -- the page holds all that is wanted
    have hle : max ≤ p.len - skip := by omega
    rw [hall, Nat.sub_eq_zero_of_le hle, take_zero, append_nil]
  have hmin : min (p.len - skip) max = p.len - skip := by omega
  have hwhole : ∀ n, p.len - skip ≤ n → (p.contents.drop skip).take n = p.contents.drop skip :=
    fun n hn => take_of_length_le (by omega)
  rw [hmin, ih, drop_zero, hwhole _ (Nat.le_refl _), hwhole max (by omega)]

/-- **Reading is reading the list.** -/
theorem bytes_eq (offset max : ℕ) : b.bytes offset max = (b.contents.drop offset).take max :=
  bytesFrom_eq b.pages offset max

/-- The loop of `consume`. -/
def consumePages : List RecvPage → ℕ → List RecvPage
  | [], _ => []
  | p :: rest, n =>
    if n = 0 then p :: rest
    else if p.len ≤ n then consumePages rest (n - p.len)
    else p.advance n :: rest

theorem contentsOf_consumePages (n : ℕ) :
    contentsOf (consumePages pages n) = (contentsOf pages).drop n := by
  induction pages generalizing n with
  | nil => simp [consumePages, contentsOf]
  | cons p rest ih =>
  have hlen := p.length_contents
  rw [consumePages]
  split
  case isTrue hzero => rw [hzero, drop_zero]
  split
  case isTrue =>
    have hpast : p.contents.drop n = [] := drop_of_length_le (by omega)
    rw [ih, contentsOf_cons, drop_append, hpast, nil_append, hlen]
  case isFalse =>
    show (p.advance n).contents ++ contentsOf rest = _
    rw [RecvPage.contents_advance, contentsOf_cons, drop_append_of_le_length (by omega)]

/-- `consume`. -/
def consume (n : ℕ) : RecvBuf where
  pages := consumePages b.pages (min n b.len)
  len := b.len - min n b.len
  len_eq := by
    rw [← length_contentsOf, contentsOf_consumePages, length_drop, length_contentsOf, ← b.len_eq]

@[simp] theorem contents_consume (n : ℕ) : (b.consume n).contents = b.contents.drop n := by
  show contentsOf (consumePages _ _) = _
  rw [contentsOf_consumePages]
  show b.contents.drop _ = _
  rcases Nat.le_total n b.len with h | h
  · rw [Nat.min_eq_left h]
  · rw [Nat.min_eq_right h, drop_of_length_le (by simp), drop_of_length_le (by simp [h])]

/-! ### Deleting a byte -/

/-- The loop of `remove`. -/
def removePages : List RecvPage → ℕ → List RecvPage
  | [], _ => []
  | p :: rest, offset =>
    if h : offset < p.len then p.remove offset h :: rest
    else p :: removePages rest (offset - p.len)

theorem contentsOf_removePages (offset : ℕ) :
    contentsOf (removePages pages offset) = (contentsOf pages).eraseIdx offset := by
  induction pages generalizing offset with
  | nil => rfl
  | cons p rest ih =>
  have hlen := p.length_contents
  rw [removePages, contentsOf_cons]
  split_ifs with h
  · show (p.remove offset h).contents ++ contentsOf rest = _
    rw [RecvPage.contents_remove, eraseIdx_append_of_lt_length (by omega)]
  show p.contents ++ contentsOf (removePages rest _) = _
  rw [ih, eraseIdx_append_of_length_le (by omega), hlen]

/-- `remove`. -/
def remove (offset : ℕ) : RecvBuf where
  pages := removePages b.pages offset
  len := if offset < b.len then b.len - 1 else b.len
  len_eq := by
    rw [← length_contentsOf, contentsOf_removePages, length_eraseIdx, length_contentsOf, ← b.len_eq]

@[simp] theorem contents_remove (offset : ℕ) :
    (b.remove offset).contents = b.contents.eraseIdx offset :=
  contentsOf_removePages b.pages offset

/-! ### Whole runs -/

inductive Op
  | push (payload : List UInt8)
  | consume (n : ℕ)
  | remove (offset : ℕ)

def run (b : RecvBuf) : Op → RecvBuf
  | .push payload => b.pushPayload payload
  | .consume n => b.consume n
  | .remove offset => b.remove offset

/-- The same on a list of bytes. -/
def Op.onBytes (bs : List UInt8) : Op → List UInt8
  | .push payload => bs ++ payload
  | .consume n => bs.drop n
  | .remove offset => bs.eraseIdx offset

/-- **The pages are a queue of bytes**: reads return what they would from the list. -/
theorem bytes_run (ops : List Op) (offset max : ℕ) : (ops.foldl run b).bytes offset max =
    ((ops.foldl Op.onBytes b.contents).drop offset).take max := by
  have hrun : ∀ b : RecvBuf, (ops.foldl run b).contents = ops.foldl Op.onBytes b.contents := by
    induction ops with
    | nil => exact fun _ => rfl
    | cons op ops ih =>
    intro b
    have hstep : (b.run op).contents = op.onBytes b.contents := by
      cases op <;> simp [run, Op.onBytes]
    rw [List.foldl_cons, ih, hstep, List.foldl_cons]
  rw [bytes_eq, hrun]

end RecvBuf

end Oxide
