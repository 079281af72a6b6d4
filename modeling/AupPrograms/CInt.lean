/-
**Signed integers of a C program, as values and as bytes in memory.**

An integer type of `k` bytes holds the numbers of absolute value up to half of `256 ^ k`; a
conversion to it keeps the value modulo `256 ^ k`.  In memory, and in a message that a program
writes from memory, the integer is its `k` bytes, the lowest first.

Main definitions:

* `CInt.wrap` — conversion to an integer of `k` bytes;
* `CInt.bytes`, `CInt.ofBytes` — an integer in memory, and the integer that some bytes are.

Main results:

* `CInt.ofBytes_bytes` — **reading back what was stored** gives the converted value;
* `CInt.wrap_eq_self` — which is the value itself when it is in range;
* `CInt.ofBytes_eq_neg_one_iff` — which bytes are the number -1.
-/

import Mathlib.Data.Int.DivMod
import Mathlib.Data.Int.Notation
import Mathlib.Algebra.Order.Ring.Int
import Mathlib.Tactic.Ring

set_option relaxedAutoImplicit false
set_option autoImplicit false

namespace CInt

/-! ### Values -/

/-- Conversion to a signed integer of `k` bytes. -/
def wrap (k : ℕ) (x : ℤ) : ℤ := x.bmod (256 ^ k)

/-- A value in range is kept. -/
theorem wrap_eq_self {k : ℕ} {x : ℤ} (hlo : -(256 ^ k) ≤ x * 2) (hhi : x * 2 < 256 ^ k) :
    wrap k x = x :=
  Int.bmod_eq_of_le_mul_two (by simpa using hlo) (by simpa using hhi)

/-- The converted value is in range. -/
theorem le_wrap (k : ℕ) (x : ℤ) : -(256 ^ k) ≤ wrap k x * 2 := by
  have hpos : 0 < 256 ^ k := Nat.pow_pos (by decide)
  have hle := Int.le_bmod (x := x) hpos
  unfold wrap
  push_cast at hle
  omega

theorem wrap_lt (k : ℕ) (x : ℤ) : wrap k x * 2 < 256 ^ k := by
  have hpos : 0 < 256 ^ k := Nat.pow_pos (by decide)
  have hlt := Int.bmod_lt (x := x) hpos
  unfold wrap
  push_cast at hlt
  omega

/-! ### Bytes -/

/-- The `k` bytes of an integer, the lowest first. -/
def bytes : ℕ → ℤ → List UInt8
  | 0, _ => []
  | k + 1, x => UInt8.ofNat (x % 256).toNat :: bytes k (x / 256)

/-- The bytes as an unsigned number. -/
def unsigned : List UInt8 → ℤ
  | [] => 0
  | b :: bs => b.toNat + 256 * unsigned bs

/-- The bytes as a signed number. -/
def ofBytes (bs : List UInt8) : ℤ := wrap bs.length (unsigned bs)

@[simp] theorem bytes_length (k : ℕ) (x : ℤ) : (bytes k x).length = k := by
  induction k generalizing x with
  | zero => rfl
  | succ k ih => rw [bytes, List.length_cons, ih]

theorem unsigned_bytes (k : ℕ) (x : ℤ) : unsigned (bytes k x) = x % 256 ^ k := by
  induction k generalizing x with
  | zero => simp [bytes, unsigned]
  | succ k ih =>
      have hbyte : ((UInt8.ofNat (x % 256).toNat).toNat : ℤ) = x % 256 := by
        rw [UInt8.toNat_ofNat']
        omega
      have hsplit : x % (256 * 256 ^ k) = x % 256 + 256 * (x / 256 % 256 ^ k) := by
        rw [Int.emod_def x (256 * _), Int.emod_def (x / 256), Int.ediv_ediv_of_nonneg (by decide),
          Int.emod_def x 256]
        ring
      rw [bytes, unsigned, ih, hbyte, pow_succ', hsplit]

/-- **Reading back what was stored.** -/
theorem ofBytes_bytes (k : ℕ) (x : ℤ) : ofBytes (bytes k x) = wrap k x := by
  rw [ofBytes, bytes_length, unsigned_bytes, wrap, wrap]
  exact_mod_cast Int.emod_bmod x (256 ^ k)

/-! ### The bytes of -1 -/

theorem unsigned_nonneg (bs : List UInt8) : 0 ≤ unsigned bs := by
  induction bs with
  | nil => exact le_refl 0
  | cons b bs ih =>
      rw [unsigned]
      omega

theorem unsigned_lt (bs : List UInt8) : unsigned bs < 256 ^ bs.length := by
  induction bs with
  | nil => exact Int.one_pos
  | cons b bs ih =>
      have hb := b.toNat_lt
      rw [unsigned, List.length_cons, pow_succ']
      omega

/-- The greatest number has the greatest bytes. -/
theorem unsigned_eq_iff (bs : List UInt8) :
    unsigned bs = 256 ^ bs.length - 1 ↔ ∀ b ∈ bs, b = 255 := by
  induction bs with
  | nil => simp [unsigned]
  | cons b bs ih =>
      have hb := b.toNat_lt
      have hlt := unsigned_lt bs
      have hbyte : b = 255 ↔ b.toNat = 255 := UInt8.toNat_inj.symm
      rw [List.forall_mem_cons, ← ih, hbyte, unsigned, List.length_cons, pow_succ']
      omega

/-- **Which bytes are the number -1.** -/
theorem ofBytes_eq_neg_one_iff {bs : List UInt8} (hne : bs ≠ []) :
    ofBytes bs = -1 ↔ ∀ b ∈ bs, b = 255 := by
  obtain ⟨k, hk⟩ : ∃ k, bs.length = k + 1 :=
    Nat.exists_eq_succ_of_ne_zero (List.length_pos_iff.2 hne).ne'
  have hpos : (0 : ℤ) < 256 ^ k := Int.pow_pos (by decide)
  have hlo := unsigned_nonneg bs
  have hhi := unsigned_lt bs
  have hmod : unsigned bs % (256 ^ bs.length : ℕ) = unsigned bs :=
    Int.emod_eq_of_lt hlo (by exact_mod_cast hhi)
  rw [← unsigned_eq_iff, ofBytes, wrap, Int.bmod, hmod]
  rw [hk] at hhi ⊢
  push_cast
  rw [pow_succ'] at hhi ⊢
  split_ifs <;> omega

end CInt
