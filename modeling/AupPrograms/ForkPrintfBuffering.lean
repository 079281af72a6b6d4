/-
**Three processes that print: `fork_printf_buffering.c`.**

The first process prints 0, waits for its child and prints 1; the child prints 2, waits for a child
of its own and prints 3; that one prints 4.  The comments of the source ask why the order of the
output depends on the newline and on where the output goes.  What decides is when the buffers are
written out.

Main definitions:

* `ForkPrintfBuffering.print` — the macro, with either value of `NO_NEWLINE`;
* `ForkPrintfBuffering.main` — the program;
* `ForkPrintfBuffering.lineOrders` — the orders in which the numbers can be printed.

Main results:

* `ForkPrintfBuffering.order_fixed_iff` — **when the order is always the same**: exactly when the
  first prints of the two parents stay in their buffers;
* `ForkPrintfBuffering.line_orders` — **the output on a terminal**: the lines come in twelve orders;
* `ForkPrintfBuffering.text_of_finished` — **however the output is buffered**, nothing is lost or
  printed twice, and what is printed after a wait comes after all that the child prints.
-/

import AupPrograms.CText
import AupPrograms.ForkJoin

set_option relaxedAutoImplicit false
set_option autoImplicit false

namespace ForkPrintfBuffering

open CText (ascii decimal)
open ForkJoin
open Stdio (Buffering put_of_flushes put_of_room)

/-! ### The program -/

/-- The macro `print`. -/
def print (noNewline : Bool) (x : ℤ) : List UInt8 :=
  if noNewline then decimal x else decimal x ++ ascii "\n"

/-- **`main`**.  A fork that fails returns `-1`, so that the branch of the parent is taken. -/
def main (noNewline : Bool) : Prog UInt8 :=
  .fork
    (.fork (.print (print noNewline 4) .exit)
      (print noNewline 2) (.print (print noNewline 3) .exit))
    (print noNewline 0) (.print (print noNewline 1) .exit)

variable {B : Buffering UInt8} {noNewline : Bool}

/-! ### When the order is fixed -/

/-- The texts that are written if a process writes nothing before it exits: the second fork or the
first may fail. -/
def fixedTexts (noNewline : Bool) : List (List UInt8) :=
  [print noNewline 4 ++ (print noNewline 2 ++ print noNewline 3)
      ++ (print noNewline 0 ++ print noNewline 1),
    print noNewline 2 ++ print noNewline 3 ++ (print noNewline 0 ++ print noNewline 1),
    print noNewline 0 ++ print noNewline 1]

theorem exists_of_held {child : Prog UInt8} {x : List UInt8} (y : List UInt8) (hx : Held B x)
    {c : List (List UInt8)} (hc : c ∈ outs B child []) :
    ∃ t ∈ outs B (.fork child x (.print y .exit)) [], t.flatten = c.flatten ++ (x ++ y) := by
  obtain ⟨r, hr⟩ := exists_mem_outs_print B y x
  refine ⟨c ++ r, ?_, ?_⟩
  · rw [outs, puts_of_held [] hx]
    refine List.mem_append_left _ (mem_joined.2 ⟨c, hc, c, r, ?_, hr, rfl⟩)
    exact interleaving_nil_left.2 rfl
  · rw [List.flatten_append, flatten_of_mem_outs_print hr]

/-- A parent whose first print stays in its buffer prints after its child, or alone. -/
theorem flatten_of_held {child : Prog UInt8} {x y : List UInt8} {t : List (List UInt8)}
    (hx : Held B x) (ht : t ∈ outs B (.fork child x (.print y .exit)) []) :
    (∃ c ∈ outs B child [], t.flatten = c.flatten ++ (x ++ y)) ∨ t.flatten = x ++ y := by
  rw [outs, puts_of_held [] hx, List.nil_append] at ht
  rcases List.mem_append.1 ht with ht | ht
  · obtain ⟨c, hc, m, r, hm, hr, rfl⟩ := mem_joined.1 ht
    left
    refine ⟨c, hc, ?_⟩
    rw [interleaving_nil_left.1 hm, List.flatten_append, flatten_of_mem_outs_print hr]
  · obtain ⟨r, hr, rfl⟩ := List.mem_map.1 ht
    right
    exact flatten_of_mem_outs_print hr

/-- A parent whose first print is written, in part, can write that first. -/
theorem exists_flatten_of_not_held {child : Prog UInt8} {x : List UInt8} (y : List UInt8)
    (hx : ¬ Held B x) {c : List (List UInt8)} (hc : c ∈ outs B child []) :
    ∃ t ∈ outs B (.fork child x (.print y .exit)) [], t.flatten.head? = x.head? ∧
      c.flatten ⊆ t.flatten := by
  have hwritten : (puts B [] x).1 ≠ [] := fun h => hx (puts_eq_nil_iff.1 h)
  obtain ⟨r, hr⟩ := exists_mem_outs_print B y (puts B [] x).2
  obtain ⟨a, as, rfl⟩ : ∃ a as, x = a :: as := by
    refine List.exists_cons_of_ne_nil fun hnil => hwritten ?_
    rw [hnil]
    rfl
  have hhead := head?_of_puts hwritten
  rw [List.head?_cons] at hhead
  refine ⟨(puts B [] (a :: as)).1 ++ c ++ r, ?_, ?_, ?_⟩
  · refine List.mem_append_left _ (mem_joined.2 ⟨c, hc, _, r, ?_, hr, rfl⟩)
    simpa using (interleaving_nil_left.2 (rfl : c = c)).append_left (puts B [] (a :: as)).1
  · rw [List.flatten_append, List.flatten_append, List.append_assoc, List.head?_append, hhead]
    rfl
  · intro b hb
    simp only [List.flatten_append, List.mem_append]
    exact Or.inl (Or.inr hb)

/-- Nothing that begins with 0 or 2 and has a 4 is one of the texts. -/
theorem not_mem_fixedTexts {text : List UInt8} {b : UInt8} (hhead : text.head? = some b)
    (hb : b ≠ 52) (hfour : 52 ∈ text) : text ∉ fixedTexts noNewline := by
  have hall : ∀ e ∈ fixedTexts noNewline, 52 ∈ e → e.head? = some 52 := by
    cases noNewline <;> decide
  intro hmem
  rw [hall text hmem hfour] at hhead
  exact hb (Option.some.inj hhead).symm

/-- **When the order is always the same**: exactly when what the two parents print before they wait
stays in their buffers. -/
theorem order_fixed_iff (B : Buffering UInt8) (noNewline : Bool) :
    (∀ as, (system B (main noNewline)).Exec as .exited → text as ∈ fixedTexts noNewline) ↔
      Held B (print noNewline 0) ∧ Held B (print noNewline 2) := by
  rw [forall_text_iff]
  obtain ⟨c, hc⟩ := exists_mem_outs_print B (print noNewline 4) []
  have hcfour : 52 ∈ c.flatten := by
    rw [flatten_of_mem_outs_print hc]
    cases noNewline <;> decide
  have hhead : ∀ x : ℤ, x = 0 ∨ x = 2 → ∃ b, (print noNewline x).head? = some b ∧ b ≠ 52 := by
    rintro x (rfl | rfl)
    · exact ⟨48, by cases noNewline <;> rfl, by decide⟩
    · exact ⟨50, by cases noNewline <;> rfl, by decide⟩
  constructor
  · intro h
    have hzero : Held B (print noNewline 0) := by
      by_contra hzero
      obtain ⟨d, hd, hcd⟩ : ∃ d ∈ outs B (.fork (.print (print noNewline 4) .exit)
          (print noNewline 2) (.print (print noNewline 3) .exit)) [], c.flatten ⊆ d.flatten := by
        by_cases htwo : Held B (print noNewline 2)
        · obtain ⟨d, hd, heq⟩ := exists_of_held (print noNewline 3) htwo hc
          exact ⟨d, hd, heq ▸ List.subset_append_left _ _⟩
        · obtain ⟨d, hd, -, hsub⟩ := exists_flatten_of_not_held (print noNewline 3) htwo hc
          exact ⟨d, hd, hsub⟩
      obtain ⟨t, ht, hfirst, hsub⟩ := exists_flatten_of_not_held (print noNewline 1) hzero hd
      obtain ⟨b, hb, hne⟩ := hhead 0 (Or.inl rfl)
      exact not_mem_fixedTexts (hfirst.trans hb) hne (hsub (hcd hcfour)) (h t ht)
    refine ⟨hzero, ?_⟩
    by_contra htwo
    obtain ⟨d, hd, hfirst, hsub⟩ := exists_flatten_of_not_held (print noNewline 3) htwo hc
    obtain ⟨t, ht, heq⟩ := exists_of_held (print noNewline 1) hzero hd
    obtain ⟨b, hb, hne⟩ := hhead 2 (Or.inr rfl)
    refine not_mem_fixedTexts ?_ hne ?_ (h t ht)
    · rw [heq, List.head?_append, hfirst, hb]
      rfl
    · rw [heq]
      exact List.mem_append_left _ (hsub hcfour)
  · rintro ⟨hzero, htwo⟩ t ht
    rcases flatten_of_held hzero ht with ⟨c, hc, heq⟩ | heq
    · rcases flatten_of_held htwo hc with ⟨d, hd, heq'⟩ | heq'
      · rw [heq, heq', flatten_of_mem_outs_print hd]
        exact List.mem_cons_self
      · rw [heq, heq']
        exact List.mem_cons_of_mem _ List.mem_cons_self
    · rw [heq]
      exact List.mem_cons_of_mem _ (List.mem_cons_of_mem _ List.mem_cons_self)

/-! ### The order of the lines -/

/-- The calls of `print` alone. -/
def calls : Prog (Fin 5) :=
  .fork (.fork (.print [4] .exit) [2] (.print [3] .exit)) [0] (.print [1] .exit)

theorem main_eq_lines (noNewline : Bool) :
    main noNewline = calls.lines fun x => print noNewline x.val := by
  cases noNewline <;> rfl

/-- The orders in which the numbers can be printed; in the last four a fork fails. -/
def lineOrders : List (List (Fin 5)) :=
  [[0, 2, 4, 3, 1], [2, 0, 4, 3, 1], [2, 4, 0, 3, 1], [2, 4, 3, 0, 1],
    [0, 4, 2, 3, 1], [4, 0, 2, 3, 1], [4, 2, 0, 3, 1], [4, 2, 3, 0, 1],
    [0, 2, 3, 1], [2, 0, 3, 1], [2, 3, 0, 1], [0, 1]]

theorem outs_calls : outs unbuffered calls [] = lineOrders.map (·.map ([·])) := by
  decide

/-- A line is written with its newline. -/
theorem puts_line (hline : ∀ b, B.flushes b = true ↔ b = 10) (hcapacity : 1 < B.capacity)
    (x : Fin 5) : puts B [] (print false x.val) = ([print false x.val], []) := by
  have hbuffer : ∀ d : UInt8, d ≠ 10 → puts B [] [d, 10] = ([[d, 10]], []) := by
    intro d hd
    have hkept : B.flushes d = false := Bool.eq_false_iff.2 fun hb => hd ((hline d).1 hb)
    rw [puts, put_of_room hkept (by rw [List.length_nil]; omega), puts,
      put_of_flushes ((hline 10).2 rfl)]
    rfl
  have hdigit : ∀ x : Fin 5, print false x.val = [48 + UInt8.ofNat x.val, 10] ∧
      48 + UInt8.ofNat x.val ≠ 10 := by decide
  obtain ⟨hprint, hne⟩ := hdigit x
  rw [hprint]
  exact hbuffer _ hne

/-- **The output on a terminal**: the lines come in twelve orders, and each of these in some run. -/
theorem line_orders (B : Buffering UInt8) (hline : ∀ b, B.flushes b = true ↔ b = 10)
    (hcapacity : 1 < B.capacity) :
    (system B (main false)).traces written (· = .exited)
      = {t | ∃ xs ∈ lineOrders, t = xs.map fun x => print false x.val} := by
  rw [traces_eq, main_eq_lines, outs_lines (puts_line hline hcapacity), outs_calls]
  ext t
  rw [List.map_map, Set.mem_ofPred_eq, Set.mem_ofPred_eq, List.mem_map]
  constructor
  · rintro ⟨xs, hxs, rfl⟩
    exact ⟨xs, hxs, map_flatMap_singles _ xs⟩
  · rintro ⟨xs, hxs, rfl⟩
    exact ⟨xs, hxs, map_flatMap_singles _ xs⟩

/-- Line buffering with a buffer of 1024 bytes. -/
theorem line_orders_terminal :
    ∃ B : Buffering UInt8, B.capacity = 1024 ∧
      (system B (main false)).traces written (· = .exited)
        = {t | ∃ xs ∈ lineOrders, t = xs.map fun x => print false x.val} := by
  refine ⟨⟨1024, by decide, (· == 10)⟩, rfl, line_orders _ (fun b => beq_iff_eq) (by decide)⟩

/-! ### Whatever the buffering -/

/-- The texts in which everything is printed once, what the first two processes print after their
wait comes after what their children print, and the rest comes in any order; or a fork fails. -/
def Ordered (noNewline : Bool) (text : List UInt8) : Prop :=
  (∃ x m, Interleaving (print noNewline 2) (print noNewline 4) x ∧
      Interleaving (print noNewline 0) (x ++ print noNewline 3) m ∧ text = m ++ print noNewline 1) ∨
    (∃ m, Interleaving (print noNewline 0) (print noNewline 2 ++ print noNewline 3) m ∧
      text = m ++ print noNewline 1) ∨
    text = print noNewline 0 ++ print noNewline 1

theorem prints_main {z : List UInt8} : Prints (main noNewline) z ↔ Ordered noNewline z := by
  rw [main, prints_fork]
  simp only [prints_fork, prints_print]
  constructor
  · rintro (⟨_, m, _, ⟨x, m', _, rfl, hx, rfl, rfl⟩ | ⟨_, rfl, rfl⟩, hm, rfl, rfl⟩ | ⟨_, rfl, rfl⟩)
    · exact Or.inl ⟨_, m, hx, hm, rfl⟩
    · exact Or.inr (Or.inl ⟨m, hm, rfl⟩)
    · exact Or.inr (Or.inr rfl)
  · rintro (⟨x, m, hx, hm, rfl⟩ | ⟨m, hm, rfl⟩ | rfl)
    · exact Or.inl ⟨_, m, _, Or.inl ⟨_, x, _, rfl, hx, rfl, rfl⟩, hm, rfl, rfl⟩
    · exact Or.inl ⟨_, m, _, Or.inr ⟨_, rfl, rfl⟩, hm, rfl, rfl⟩
    · exact Or.inr ⟨_, rfl, rfl⟩

/-- **However the output is buffered**, every run comes to its end and the text is in order; and
without a buffer, when it is written byte by byte (glibc writes what one `printf` prints at once),
it can be any text that is. -/
theorem text_of_finished (noNewline : Bool) :
    (∀ (B : Buffering UInt8) as s, (system B (main noNewline)).Exec as s →
      as.length ≤ (main noNewline).size ∧
        (∃ bs, (system B (main noNewline)).Run s bs .exited) ∧
        (s = .exited → Ordered noNewline (text as))) ∧
      ∀ z, Ordered noNewline z →
        ∃ as, (system unbuffered (main noNewline)).Exec as .exited ∧ text as = z := by
  constructor
  · intro B as s h
    have hempty : EmptyAtForks B (main noNewline) [] :=
      ⟨rfl, ⟨rfl, emptyAtForks_print _ _, emptyAtForks_print _ _⟩, emptyAtForks_print _ _⟩
    refine ⟨by have := length_le h; omega, exists_run_exited h, ?_⟩
    rintro rfl
    exact prints_main.1 (prints_of_exec hempty h)
  · intro z hz
    exact exists_exec_of_prints (prints_main.2 hz)

end ForkPrintfBuffering
