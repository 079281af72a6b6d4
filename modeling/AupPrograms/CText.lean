/-
**C strings, and standard input read by lines.**

A C string ends before its first zero byte.  `gets` reads up to a newline, which it drops, or up to
the end of the input, which it reports.

Main definitions:

* `CText.ascii` — the bytes of a text;
* `CText.cstr` — the C string at the beginning of some bytes;
* `CText.gets` — one call of `gets`;
* `CText.lines` — the lines of an input, without what follows the last newline;
* `CText.unterminated`, `CText.allLines` — what follows the last newline, and the lines with it;
* `CText.decimal` — a number, as it is printed.

Main results:

* `CText.lines_of_gets` — **`gets` takes the first line**, as long as there is one;
* `CText.gets_of_lines` — and it reports the end of the input exactly when there is none;
* `CText.flatMap_lines_append` — **the lines and what follows the last newline make up the input**;
* `CText.allLines_flatMap` — and a text made of lines has these lines.
-/

import Mathlib.Algebra.Ring.Nat
import Mathlib.Data.List.DropRight
import Mathlib.Data.List.TakeWhile
import Mathlib.Data.Nat.Notation

set_option relaxedAutoImplicit false
set_option autoImplicit false

namespace CText

/-! ### C strings -/

/-- The bytes of a text in ASCII. -/
def ascii (s : String) : List UInt8 := s.toList.map fun c => UInt8.ofNat c.toNat

/-- The bytes before the first zero byte. -/
def cstr (bs : List UInt8) : List UInt8 := bs.takeWhile (· ≠ 0)

theorem cstr_isPrefix (bs : List UInt8) : cstr bs <+: bs := List.takeWhile_prefix _

theorem cstr_length_le (bs : List UInt8) : (cstr bs).length ≤ bs.length :=
  (cstr_isPrefix bs).length_le

/-- A C string has no zero byte. -/
theorem ne_zero_of_mem_cstr {bs : List UInt8} {b : UInt8} (h : b ∈ cstr bs) : b ≠ 0 := by
  simpa using List.mem_takeWhile_imp h

theorem cstr_eq_self {bs : List UInt8} (h : ∀ b ∈ bs, b ≠ 0) : cstr bs = bs :=
  List.takeWhile_eq_self_iff.2 (by simpa using h)

/-! ### Lines -/

/-- What a call of `gets` reads, what it leaves, and whether it came to the end of the input. -/
structure Got where
  line : List UInt8
  rest : List UInt8
  eof : Bool
  deriving DecidableEq

/-- `gets`; the newline is the byte 10. -/
def gets : List UInt8 → Got
  | [] => ⟨[], [], true⟩
  | b :: bs => if b = 10 then ⟨[], bs, false⟩ else { gets bs with line := b :: (gets bs).line }

/-- The lines of an input, each up to its newline. -/
def lines : List UInt8 → List (List UInt8)
  | [] => []
  | b :: bs =>
      if b = 10 then [] :: lines bs
      else
        match lines bs with
        | [] => []
        | l :: ls => (b :: l) :: ls

/-- **What `gets` reads is the first line**, and the end of the input is that there is no line. -/
theorem lines_of_gets (bs : List UInt8) :
    lines bs = if (gets bs).eof then [] else (gets bs).line :: lines (gets bs).rest := by
  induction bs with
  | nil => rfl
  | cons b bs ih =>
      by_cases hb : b = 10
      · simp [gets, lines, hb]
      · rw [lines, gets, if_neg hb, if_neg hb, ih]
        cases (gets bs).eof <;> rfl

theorem gets_of_lines {bs l : List UInt8} {ls : List (List UInt8)} (h : lines bs = l :: ls) :
    (gets bs).eof = false ∧ (gets bs).line = l ∧ lines (gets bs).rest = ls := by
  rw [lines_of_gets] at h
  cases heof : (gets bs).eof with
  | true => simp [heof] at h
  | false =>
      rw [heof, if_neg Bool.false_ne_true] at h
      exact ⟨rfl, List.cons.inj h⟩

/-! ### The lines of an input -/

/-- What follows the last newline. -/
def unterminated (bs : List UInt8) : List UInt8 := bs.rtakeWhile (· ≠ 10)

/-- **The lines of an input**, the last one also if no newline follows it. -/
def allLines (bs : List UInt8) : List (List UInt8) :=
  lines bs ++ if unterminated bs = [] then [] else [unterminated bs]

/-- What `gets` reads when it reports the end of the input. -/
theorem gets_of_eof {bs : List UInt8} (h : (gets bs).eof = true) :
    10 ∉ bs ∧ (gets bs).line = bs ∧ (gets bs).rest = [] := by
  induction bs with
  | nil => exact ⟨List.not_mem_nil, rfl, rfl⟩
  | cons b bs ih =>
      by_cases hb : b = 10
      · simp [gets, hb] at h
      · rw [gets, if_neg hb] at h ⊢
        obtain ⟨hmem, hline, hrest⟩ := ih h
        refine ⟨?_, congrArg (b :: ·) hline, hrest⟩
        rw [List.mem_cons, not_or]
        exact ⟨Ne.symm hb, hmem⟩

/-- What it reads otherwise. -/
theorem eq_of_gets {bs : List UInt8} (h : (gets bs).eof = false) :
    bs = (gets bs).line ++ 10 :: (gets bs).rest := by
  induction bs with
  | nil => cases h
  | cons b bs ih =>
      by_cases hb : b = 10
      · simp [gets, hb]
      · rw [gets, if_neg hb] at h ⊢
        exact congrArg (b :: ·) (ih h)

theorem lines_eq_nil_iff (bs : List UInt8) : lines bs = [] ↔ (gets bs).eof = true := by
  rw [lines_of_gets]
  cases (gets bs).eof with
  | true => simp
  | false => simp

/-- Without any newline the whole input is the last line. -/
theorem unterminated_of_not_mem {bs : List UInt8} (h : 10 ∉ bs) : unterminated bs = bs := by
  rw [unterminated, List.rtakeWhile_eq_self_iff]
  intro b hb
  simp only [ne_eq, decide_not, Bool.not_eq_eq_eq_not, Bool.not_true, decide_eq_false_iff_not]
  exact fun heq => h (heq ▸ hb)

/-- What stands before a newline does not matter. -/
theorem unterminated_append (as bs : List UInt8) :
    unterminated (as ++ 10 :: bs) = unterminated bs := by
  induction bs using List.reverseRecOn with
  | nil => simp [unterminated, List.rtakeWhile_concat_neg]
  | append_singleton bs b ih =>
      rw [unterminated, unterminated, ← List.cons_append, ← List.append_assoc,
        List.rtakeWhile_concat, List.rtakeWhile_concat]
      split_ifs
      · exact congrArg (· ++ [b]) ih
      · rfl

/-- What follows the last newline follows it in what is left after the first line, too. -/
theorem unterminated_rest {bs : List UInt8} (h : (gets bs).eof = false) :
    unterminated (gets bs).rest = unterminated bs := by
  conv_rhs => rw [eq_of_gets h]
  exact (unterminated_append _ _).symm

/-- The lines from the second one on. -/
theorem allLines_of_cons {bs l : List UInt8} {ls : List (List UInt8)} (h : lines bs = l :: ls) :
    allLines bs = l :: allLines (gets bs).rest := by
  obtain ⟨heof, -, hrest⟩ := gets_of_lines h
  rw [allLines, allLines, h, hrest, unterminated_rest heof, List.cons_append]

/-- **The lines, each with its newline, and the unterminated one make up the input.** -/
theorem flatMap_lines_append (bs : List UInt8) :
    ((lines bs).flatMap fun l => l ++ [10]) ++ unterminated bs = bs := by
  induction hl : lines bs generalizing bs with
  | nil =>
      obtain ⟨hmem, -, -⟩ := gets_of_eof ((lines_eq_nil_iff bs).1 hl)
      exact unterminated_of_not_mem hmem
  | cons l ls ih =>
      obtain ⟨heof, hline, hrest⟩ := gets_of_lines hl
      have hbs := eq_of_gets heof
      rw [hline] at hbs
      have htail := ih (gets bs).rest hrest
      calc (((l :: ls).flatMap fun l => l ++ [10]) ++ unterminated bs)
          = l ++ 10 :: ((ls.flatMap fun l => l ++ [10]) ++ unterminated (gets bs).rest) := by
            rw [unterminated_rest heof]
            simp
        _ = bs := by rw [htail, ← hbs]

/-- A line has no other bytes than the input. -/
theorem mem_of_mem_lines {bs l : List UInt8} (hl : l ∈ lines bs) {b : UInt8} (hb : b ∈ l) :
    b ∈ bs := by
  rw [← flatMap_lines_append bs]
  refine List.mem_append_left _ (List.mem_flatMap.2 ⟨l, hl, ?_⟩)
  exact List.mem_append_left _ hb

/-! ### Texts made of lines -/

/-- The first line of a text. -/
theorem lines_line {l : List UInt8} (h : 10 ∉ l) (bs : List UInt8) :
    lines (l ++ 10 :: bs) = l :: lines bs := by
  induction l with
  | nil => simp [lines]
  | cons b l ih =>
      rw [List.mem_cons, not_or] at h
      rw [List.cons_append, lines, if_neg (Ne.symm h.1), ih h.2]

theorem allLines_line {l : List UInt8} (h : 10 ∉ l) (bs : List UInt8) :
    allLines (l ++ 10 :: bs) = l :: allLines bs := by
  rw [allLines, lines_line h, unterminated_append, List.cons_append]
  rfl

/-- **The lines of a text that was put together from lines**, and of what follows them. -/
theorem allLines_flatMap_append {ls : List (List UInt8)} (h : ∀ l ∈ ls, 10 ∉ l) (bs : List UInt8) :
    allLines ((ls.flatMap fun l => l ++ [10]) ++ bs) = ls ++ allLines bs := by
  induction ls with
  | nil => rfl
  | cons l ls ih =>
      obtain ⟨hl, hls⟩ := List.forall_mem_cons.1 h
      rw [List.flatMap_cons, List.append_assoc, List.append_assoc, List.singleton_append,
        allLines_line hl, ih hls, List.cons_append]

theorem allLines_flatMap {ls : List (List UInt8)} (h : ∀ l ∈ ls, 10 ∉ l) :
    allLines (ls.flatMap fun l => l ++ [10]) = ls := by
  have happend := allLines_flatMap_append h []
  rw [List.append_nil] at happend
  exact happend.trans (List.append_nil ls)

/-- A text is not longer than its lines with their newlines. -/
theorem length_le_sum (bs : List UInt8) :
    bs.length ≤ ((allLines bs).map fun l => l.length + 1).sum := by
  have hlen := congrArg List.length (flatMap_lines_append bs)
  rw [List.length_append, List.length_flatMap] at hlen
  have hlines : ((lines bs).map fun l => (l ++ [10]).length) =
      (lines bs).map fun l => l.length + 1 :=
    List.map_congr_left fun l _ => List.length_append
  rw [hlines] at hlen
  rw [allLines, List.map_append, List.sum_append]
  split_ifs with hnil
  · rw [hnil] at hlen
    exact le_of_eq hlen.symm
  · simp only [List.map_cons, List.map_nil, List.sum_cons, List.sum_nil]
    omega

/-! ### Numbers -/

/-- A number, as `%d` prints it. -/
def decimal (x : ℤ) : List UInt8 :=
  (if x < 0 then ascii "-" else []) ++
    (Nat.toDigits 10 x.natAbs).map fun c => UInt8.ofNat c.toNat

theorem isDigit_bounds {c : Char} (h : c.isDigit = true) : 48 ≤ c.toNat ∧ c.toNat ≤ 57 := by
  simp only [Char.isDigit, ge_iff_le, Bool.and_eq_true, decide_eq_true_eq] at h
  exact ⟨UInt32.le_iff_toNat_le.1 h.1, UInt32.le_iff_toNat_le.1 h.2⟩

/-- A number is printed with a sign and digits. -/
theorem mem_decimal {x : ℤ} {b : UInt8} (h : b ∈ decimal x) :
    b = 45 ∨ 48 ≤ b.toNat ∧ b.toNat ≤ 57 := by
  rcases List.mem_append.1 h with hminus | hdigit
  · split_ifs at hminus
    · exact .inl (List.mem_singleton.1 hminus)
    · cases hminus
  · obtain ⟨c, hc, rfl⟩ := List.mem_map.1 hdigit
    have hb := isDigit_bounds (Nat.isDigit_of_mem_toDigits (by decide) (by decide) hc)
    right
    rw [UInt8.toNat_ofNat']
    omega

/-- Different numbers are printed differently. -/
theorem decimal_natCast_inj {k k' : ℕ} (h : decimal k = decimal k') : k = k' := by
  have hback : ∀ n : ℕ, (decimal n).map (fun b => Char.ofNat b.toNat) = Nat.toDigits 10 n := by
    intro n
    have hneg : ¬ (n : ℤ) < 0 := Int.not_lt.2 (Int.natCast_nonneg n)
    rw [decimal, if_neg hneg, List.nil_append, Int.natAbs_natCast, List.map_map]
    conv_rhs => rw [← List.map_id (Nat.toDigits 10 n)]
    refine List.map_congr_left fun c hc => ?_
    have hb := isDigit_bounds (Nat.isDigit_of_mem_toDigits (by decide) (by decide) hc)
    rw [Function.comp_apply, UInt8.toNat_ofNat', Nat.mod_eq_of_lt (by omega), Char.ofNat_toNat, id]
  have hdigits := congrArg (List.map fun b : UInt8 => Char.ofNat b.toNat) h
  rw [hback, hback] at hdigits
  rw [← Nat.ofDigitChars_ten_toDigits (n := k), hdigits, Nat.ofDigitChars_ten_toDigits]

end CText
