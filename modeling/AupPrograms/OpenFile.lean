/-
**A regular file open for reading and writing.**

The contents of a file with the offset of one descriptor on it, and the calls that move the offset,
read and write.  Positions past the end are allowed; the first write there fills the gap with zero
bytes.

Main definitions:

* `OpenFile` — contents and offset;
* `OpenFile.lseek`, `OpenFile.read`, `OpenFile.write` — the three calls.

Main results:

* `OpenFile.write_write` — two writes in a row are one;
* `OpenFile.write_bytes_inside`, `OpenFile.write_bytes_past` — what a write leaves, before and after
  the end of the file;
* `OpenFile.getElem?_write` — **each byte after a write**;
* `OpenFile.read_one` — reading one byte.
-/

import Mathlib.Data.List.Basic
import Mathlib.Data.List.GetD
import Mathlib.Data.Int.Notation
import Mathlib.Algebra.Order.Ring.Int

set_option relaxedAutoImplicit false
set_option autoImplicit false

/-- The contents of a file and the offset of a descriptor. -/
@[ext]
structure OpenFile where
  bytes : List UInt8
  pos : ℕ
  deriving DecidableEq

namespace OpenFile

/-- What an offset is relative to: `SEEK_SET`, `SEEK_CUR`, `SEEK_END`. -/
inductive Whence
  | set
  | cur
  | fromEnd
  deriving DecidableEq

/-- The position an offset is relative to. -/
def base (f : OpenFile) : Whence → ℤ
  | .set => 0
  | .cur => f.pos
  | .fromEnd => f.bytes.length

/-- `lseek`: a position before the start of the file, or beyond the range of `off_t`, is refused. -/
def lseek (f : OpenFile) (offset : ℤ) (whence : Whence) : Option OpenFile :=
  if 0 ≤ f.base whence + offset ∧ f.base whence + offset < 2 ^ 63 then
    some { f with pos := (f.base whence + offset).toNat }
  else none

/-- The contents up to the offset, with the gap filled. -/
def upto (f : OpenFile) : List UInt8 :=
  f.bytes.take f.pos ++ List.replicate (f.pos - f.bytes.length) 0

/-- `write`: the bytes replace what is at the offset, which moves on behind them. -/
def write (f : OpenFile) (bs : List UInt8) : OpenFile where
  bytes := if bs = [] then f.bytes else f.upto ++ bs ++ f.bytes.drop (f.pos + bs.length)
  pos := f.pos + bs.length

@[simp] theorem write_pos (f : OpenFile) (bs : List UInt8) :
    (f.write bs).pos = f.pos + bs.length := rfl

@[simp] theorem write_nil (f : OpenFile) : f.write [] = f := rfl

@[simp] theorem upto_length (f : OpenFile) : f.upto.length = f.pos := by
  simp [upto]
  omega

theorem write_bytes {f : OpenFile} {bs : List UInt8} (h : bs ≠ []) :
    (f.write bs).bytes = f.upto ++ bs ++ f.bytes.drop (f.pos + bs.length) := if_neg h

/-- Behind a write the offset is inside the file. -/
theorem upto_write {f : OpenFile} {bs : List UInt8} (h : bs ≠ []) :
    (f.write bs).upto = f.upto ++ bs := by
  have hpos : (f.write bs).pos = (f.upto ++ bs).length := by simp
  have hlen : (f.write bs).pos ≤ (f.write bs).bytes.length := by
    rw [write_bytes h, hpos]
    simp
  rw [upto, Nat.sub_eq_zero_of_le hlen, List.replicate_zero, List.append_nil, hpos, write_bytes h,
    List.take_left]

/-- **Two writes in a row are one.** -/
theorem write_write (f : OpenFile) (bs cs : List UInt8) :
    (f.write bs).write cs = f.write (bs ++ cs) := by
  rcases eq_or_ne bs [] with rfl | hbs
  · rfl
  rcases eq_or_ne cs [] with rfl | hcs
  · simp
  have hdrop : (f.write bs).bytes.drop ((f.write bs).pos + cs.length)
      = f.bytes.drop (f.pos + (bs ++ cs).length) := by
    have hlen : (f.write bs).pos = (f.upto ++ bs).length := by simp
    rw [write_bytes hbs, hlen, List.drop_length_add_append, List.drop_drop]
    simp [Nat.add_assoc]
  ext1
  · rw [write_bytes hcs, upto_write hbs, hdrop,
      write_bytes (List.append_ne_nil_of_left_ne_nil hbs cs)]
    simp
  · simp [Nat.add_assoc]

/-- A write that starts inside the file. -/
theorem write_bytes_inside {f : OpenFile} {bs : List UInt8} (h : bs ≠ [])
    (hpos : f.pos ≤ f.bytes.length) :
    (f.write bs).bytes = f.bytes.take f.pos ++ bs ++ f.bytes.drop (f.pos + bs.length) := by
  rw [write_bytes h, upto, Nat.sub_eq_zero_of_le hpos, List.replicate_zero, List.append_nil]

/-- A write that starts at the end of the file or past it. -/
theorem write_bytes_past {f : OpenFile} {bs : List UInt8} (h : bs ≠ [])
    (hpos : f.bytes.length ≤ f.pos) :
    (f.write bs).bytes = f.bytes ++ List.replicate (f.pos - f.bytes.length) 0 ++ bs := by
  rw [write_bytes h, upto, List.take_of_length_le hpos, List.drop_eq_nil_of_le (by omega),
    List.append_nil]

/-- A write at the end. -/
theorem write_bytes_end (bytes bs : List UInt8) :
    (write ⟨bytes, bytes.length⟩ bs).bytes = bytes ++ bs := by
  rcases eq_or_ne bs [] with rfl | hbs
  · exact (List.append_nil bytes).symm
  · rw [write_bytes_past hbs (le_refl _), Nat.sub_self, List.replicate_zero, List.append_nil]

/-- A write at the beginning. -/
theorem write_bytes_zero (bytes bs : List UInt8) :
    (write ⟨bytes, 0⟩ bs).bytes = bs ++ bytes.drop bs.length := by
  rcases eq_or_ne bs [] with rfl | hbs
  · rfl
  · rw [write_bytes_inside hbs (Nat.zero_le _), List.take_zero, List.nil_append, Nat.zero_add]

/-! ### Each byte after a write -/

theorem getElem?_upto (f : OpenFile) {i : ℕ} (hi : i < f.pos) :
    f.upto[i]? = some (f.bytes.getD i 0) := by
  rcases Nat.lt_or_ge i f.bytes.length with hlt | hge
  · have hlen : i < (f.bytes.take f.pos).length := by
      rw [List.length_take]
      omega
    rw [upto, List.getElem?_append_left hlen, List.getElem?_take_of_lt hi,
      List.getD_eq_getElem _ _ hlt, List.getElem?_eq_getElem hlt]
  · have hlen : (f.bytes.take f.pos).length ≤ i := by
      rw [List.length_take]
      omega
    rw [upto, List.getElem?_append_right hlen, List.getElem?_replicate,
      if_pos (by rw [List.length_take]; omega), List.getD_eq_default _ _ hge]

/-- **Each byte after a write**: before its place, in it and behind it. -/
theorem getElem?_write {f : OpenFile} {bs : List UInt8} (h : bs ≠ []) (i : ℕ) :
    (f.write bs).bytes[i]? =
      if i < f.pos then some (f.bytes.getD i 0)
      else if i < f.pos + bs.length then bs[i - f.pos]?
      else f.bytes[i]? := by
  rw [write_bytes h, List.append_assoc]
  split_ifs with hbefore hin
  · rw [List.getElem?_append_left (by rwa [upto_length]), getElem?_upto f hbefore]
  · rw [List.getElem?_append_right (by rw [upto_length]; omega), upto_length,
      List.getElem?_append_left (by omega)]
  · rw [List.getElem?_append_right (by rw [upto_length]; omega), upto_length,
      List.getElem?_append_right (by omega), List.getElem?_drop]
    congr 1
    omega

/-- What stands before the offset is not touched. -/
theorem getElem?_write_of_lt {f : OpenFile} (bs : List UInt8) {i : ℕ} (hpos : i < f.pos)
    (hlen : i < f.bytes.length) : (f.write bs).bytes[i]? = f.bytes[i]? := by
  rcases eq_or_ne bs [] with rfl | hbs
  · rfl
  · rw [getElem?_write hbs, if_pos hpos, List.getD_eq_getElem _ _ hlen,
      List.getElem?_eq_getElem hlen]

/-- A write does not make a file shorter. -/
theorem length_le_write (f : OpenFile) (bs : List UInt8) :
    f.bytes.length ≤ (f.write bs).bytes.length := by
  rcases eq_or_ne bs [] with rfl | hbs
  · exact le_refl _
  · rw [write_bytes hbs, List.length_append, List.length_append, upto_length, List.length_drop]
    omega

/-! ### Reading -/

/-- What there is from the offset on. -/
def rest (f : OpenFile) : List UInt8 := f.bytes.drop f.pos

/-- `read`: the next bytes, at most `n`; the offset moves on behind them. -/
def read (f : OpenFile) (n : ℕ) : List UInt8 × OpenFile :=
  (f.rest.take n, { f with pos := f.pos + (f.rest.take n).length })

/-- The offset is one further. -/
def skip (f : OpenFile) : OpenFile := { f with pos := f.pos + 1 }

/-- **Reading one byte** takes the first of those that are left. -/
theorem read_one {f : OpenFile} {b : UInt8} {bs : List UInt8} (h : f.rest = b :: bs) :
    f.read 1 = ([b], f.skip) ∧ f.skip.rest = bs := by
  constructor
  · simp [read, h, skip]
  · have htail : f.skip.rest = f.rest.tail := by
      rw [rest, rest, List.tail_drop]
      rfl
    rw [htail, h, List.tail_cons]

theorem read_nil {f : OpenFile} (h : f.rest = []) (n : ℕ) : f.read n = ([], f) := by
  simp [read, h]

end OpenFile
