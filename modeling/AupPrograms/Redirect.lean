/-
**Redirecting standard input and output** (`assignment_3/redirect.c`).

The program opens the file "stdin", closes descriptor 0, duplicates the descriptor of the file and
closes that; then it does the same with the file "stdout" and descriptor 1.  It relies on `dup`,
which takes the lowest number that is free: the one just closed, if all below it are taken.  If the
descriptor to be replaced was not open, the file itself gets its number, is closed, and cannot be
duplicated any more.

Main definitions:

* `Redirect.openFile`, `Redirect.close`, `Redirect.dup` — the calls;
* `Redirect.replace` — replacing one descriptor;
* `Redirect.main` — the program.

Main results:

* `Redirect.replace_ok`, `Redirect.exists_replace` — what replacing does, and when it succeeds;
* `Redirect.redirects` — **the program gets to its end exactly when both descriptors are open, and
  then they are replaced and nothing else has changed.**
-/

import AupPrograms.Syscall

set_option relaxedAutoImplicit false
set_option autoImplicit false

namespace Redirect

open Syscall FdTable

universe u v

variable {D : Type u}

/-! ### The program -/

/-- The call after which the program has returned `errno`. -/
inductive Failed
  | open
  /-- "Close failed" -/
  | close
  /-- "Dup failed" -/
  | dup
  deriving DecidableEq

/-- `open` of an existing file, whose open file description is `d`; it may fail all the same. -/
def openFile (ok : Bool) (t : FdTable D) (d : D) : Except Failed (ℕ × FdTable D) :=
  if ok then .ok (t.free, t.alloc d) else .error .open

/-- `close` -/
def close (ok : Bool) (t : FdTable D) (fd : ℕ) : Except Failed (FdTable D) :=
  if ok ∧ (t.get fd).isSome then .ok (t.put fd none) else .error .close

/-- `dup` -/
def dup (ok : Bool) (t : FdTable D) (fd : ℕ) : Except Failed (ℕ × FdTable D) :=
  match t.get fd with
  | none => .error .dup
  | some d => if ok then .ok (t.free, t.alloc d) else .error .dup

/-- `open(...); close(target); dup(fd); close(fd);`, with the calls from number `k` on. -/
def replace (ok : ℕ → Bool) (k : ℕ) (t : FdTable D) (target : ℕ) (d : D) :
    Except Failed (FdTable D) := do
  let (fd, t₁) ← openFile (ok k) t d
  let t₂ ← close (ok (k + 1)) t₁ target
  let (_, t₃) ← dup (ok (k + 2)) t₂ fd
  close (ok (k + 3)) t₃ fd

/-- The program, up to its last `printf`; `stdin` and `stdout` are what the two files are opened as,
and `ok` says which of the calls may succeed.  (`scanf` does not touch the descriptors.) -/
def main (ok : ℕ → Bool) (stdin stdout : D) (t : FdTable D) : Except Failed (FdTable D) := do
  let t₁ ← replace ok 0 t 0 stdin
  replace ok 4 t₁ 1 stdout

/-! ### The calls -/

theorem bind_eq_ok_iff {ε : Type v} {α β : Type u} {x : Except ε α} {f : α → Except ε β} {b : β} :
    x >>= f = .ok b ↔ ∃ a, x = .ok a ∧ f a = .ok b := by
  cases x with
  | error e => exact iff_of_false (fun h => nomatch h) fun ⟨_, h, _⟩ => nomatch h
  | ok a =>
      constructor
      · intro h
        exact ⟨a, rfl, h⟩
      · rintro ⟨a', ha, h⟩
        cases ha
        exact h

variable {ok : Bool} {t t' : FdTable D} {fd : ℕ} {d : D}

theorem openFile_eq_ok_iff {r : ℕ × FdTable D} :
    openFile ok t d = .ok r ↔ ok = true ∧ r = (t.free, t.alloc d) := by
  cases ok with
  | false => simp [openFile]
  | true => simp [openFile, eq_comm]

theorem close_eq_ok_iff :
    close ok t fd = .ok t' ↔ ok = true ∧ t.get fd ≠ none ∧ t' = t.put fd none := by
  unfold close
  split_ifs with h
  · simp [h.1, Option.isSome_iff_ne_none.1 h.2, eq_comm]
  · refine iff_of_false (fun h' => nomatch h') fun h' => h ⟨h'.1, ?_⟩
    exact Option.isSome_iff_ne_none.2 h'.2.1

theorem dup_eq_ok_iff {r : ℕ × FdTable D} :
    dup ok t fd = .ok r ↔ ok = true ∧ ∃ d, t.get fd = some d ∧ r = (t.free, t.alloc d) := by
  unfold dup
  cases hget : t.get fd with
  | none => simp
  | some d =>
      cases ok with
      | false => simp
      | true => simp [eq_comm]

/-- **The calls of a replacement that succeeds.** -/
theorem replace_eq_ok_iff {ok : ℕ → Bool} {k target : ℕ} :
    replace ok k t target d = .ok t' ↔
      (ok k = true ∧ ok (k + 1) = true ∧ ok (k + 2) = true ∧ ok (k + 3) = true) ∧
        (t.alloc d).get target ≠ none ∧
        ∃ e, ((t.alloc d).put target none).get t.free = some e ∧
          (((t.alloc d).put target none).alloc e).get t.free ≠ none ∧
          t' = (((t.alloc d).put target none).alloc e).put t.free none := by
  simp only [replace, bind_eq_ok_iff, openFile_eq_ok_iff, close_eq_ok_iff, dup_eq_ok_iff,
    Prod.exists, Prod.mk.injEq]
  constructor
  · rintro ⟨_, _, ⟨h₀, rfl, rfl⟩, _, ⟨h₁, hget, rfl⟩, _, _, ⟨h₂, e, he, rfl, rfl⟩, h₃, hget', rfl⟩
    exact ⟨⟨h₀, h₁, h₂, h₃⟩, hget, e, he, hget', rfl⟩
  · rintro ⟨⟨h₀, h₁, h₂, h₃⟩, hget, e, he, hget', rfl⟩
    exact ⟨_, _, ⟨h₀, rfl, rfl⟩, _, ⟨h₁, hget, rfl⟩, _, _, ⟨h₂, e, he, rfl, rfl⟩, h₃, hget', rfl⟩

/-! ### One replacement -/

/-- When all numbers below it are taken, a descriptor that has just been closed is the lowest free
one. -/
theorem free_put {target : ℕ} (hbelow : ∀ m < target, t.get m ≠ none) (h : t.get target ≠ none) :
    (t.put target none).free = target := by
  refine free_eq (get_put_self h none) fun m hm => ?_
  rw [get_put_of_ne (Nat.ne_of_lt hm)]
  exact hbelow m hm

/-- The file is opened behind a descriptor that is open, if all numbers below that are taken. -/
theorem lt_free {target : ℕ} (hbelow : ∀ m < target, t.get m ≠ none) (h : t.get target ≠ none) :
    target < t.free := by
  by_contra hge
  rcases Nat.eq_or_lt_of_le (Nat.le_of_not_lt hge) with heq | hlt
  · exact h (heq ▸ get_free t)
  · exact hbelow _ hlt (get_free t)

/-- The table between `close(target)` and `dup(fd)`: the file is open, and `target` is the lowest
free number. -/
theorem get_put_alloc {target : ℕ} (hbelow : ∀ m < target, t.get m ≠ none)
    (hopen : t.get target ≠ none) (d : D) :
    (t.alloc d).get target ≠ none ∧ ((t.alloc d).put target none).get t.free = some d ∧
      ((t.alloc d).put target none).free = target := by
  have hlt := lt_free hbelow hopen
  have htarget : (t.alloc d).get target ≠ none := by
    rw [get_alloc_of_ne (Nat.ne_of_lt hlt)]
    exact hopen
  refine ⟨htarget, ?_, free_put (fun m hm => ?_) htarget⟩
  · rw [get_put_of_ne (Nat.ne_of_gt hlt), get_alloc_self]
  · rw [get_alloc_of_ne (Nat.ne_of_lt (Nat.lt_trans hm hlt))]
    exact hbelow m hm

/-- **What a replacement does**: the descriptor was open, it refers to the file, and the others are
as they were. -/
theorem replace_ok {ok : ℕ → Bool} {k target : ℕ} (hbelow : ∀ m < target, t.get m ≠ none)
    (h : replace ok k t target d = .ok t') :
    t.get target ≠ none ∧ t'.get target = some d ∧ ∀ m, m ≠ target → t'.get m = t.get m := by
  obtain ⟨-, htarget, e, he, hget, rfl⟩ := replace_eq_ok_iff.1 h
  have hopen : t.get target ≠ none := by
    intro hclosed
    -- the file has got the number, and it has been closed
    have hfree : t.free = target := free_eq hclosed hbelow
    rw [hfree, get_put_self htarget] at he
    cases he
  have hne := Nat.ne_of_gt (lt_free hbelow hopen)
  obtain ⟨-, hfile, hfree⟩ := get_put_alloc hbelow hopen d
  obtain rfl : d = e := Option.some_inj.1 (hfile.symm.trans he)
  have hdup := get_alloc_self ((t.alloc d).put target none) d
  rw [hfree] at hdup
  refine ⟨hopen, ?_, fun m hm => ?_⟩
  · rw [get_put_of_ne hne.symm, hdup]
  · rcases eq_or_ne m t.free with rfl | hm'
    · rw [get_put_self hget, get_free]
    · rw [get_put_of_ne hm', get_alloc_of_ne (by rwa [hfree]), get_put_of_ne hm,
        get_alloc_of_ne hm']

/-- **A replacement of a descriptor that is open succeeds** when its calls may. -/
theorem exists_replace {k target : ℕ} (hbelow : ∀ m < target, t.get m ≠ none)
    (hopen : t.get target ≠ none) (d : D) :
    ∃ t', replace (fun _ => true) k t target d = .ok t' := by
  have hne := Nat.ne_of_gt (lt_free hbelow hopen)
  obtain ⟨htarget, hfile, hfree⟩ := get_put_alloc hbelow hopen d
  refine ⟨_, replace_eq_ok_iff.2 ⟨⟨rfl, rfl, rfl, rfl⟩, htarget, d, hfile, ?_, rfl⟩⟩
  rw [get_alloc_of_ne (by rwa [hfree]), hfile]
  exact Option.some_ne_none d

/-! ### The program -/

/-- Below descriptor 0 there is none. -/
theorem taken_of_lt_zero (m : ℕ) (hm : m < 0) : t.get m ≠ none := absurd hm (Nat.not_lt_zero m)

/-- Below descriptor 1 there is only descriptor 0. -/
theorem taken_of_lt_one (h : t.get 0 = some d) (m : ℕ) (hm : m < 1) : t.get m ≠ none := by
  obtain rfl : m = 0 := by omega
  rw [h]
  exact Option.some_ne_none d

/-- Standard input is replaced, and then standard output. -/
theorem main_ok {ok : ℕ → Bool} {stdin stdout : D} (h : main ok stdin stdout t = .ok t') :
    (t.get 0 ≠ none ∧ t.get 1 ≠ none) ∧ t'.get 0 = some stdin ∧ t'.get 1 = some stdout ∧
      ∀ m, m ≠ 0 → m ≠ 1 → t'.get m = t.get m := by
  obtain ⟨t₁, h₁, h₂⟩ := bind_eq_ok_iff.1 h
  obtain ⟨hopen₀, hin, hkeep₁⟩ := replace_ok taken_of_lt_zero h₁
  obtain ⟨hopen₁, hout, hkeep₂⟩ := replace_ok (taken_of_lt_one hin) h₂
  refine ⟨⟨hopen₀, ?_⟩, ?_, hout, fun m hm₀ hm₁ => ?_⟩
  · rwa [← hkeep₁ 1 Nat.one_ne_zero]
  · rw [hkeep₂ 0 Nat.zero_ne_one, hin]
  · rw [hkeep₂ m hm₁, hkeep₁ m hm₀]

/-- **The program gets to its end exactly when both descriptors are open at the start**, unless a
call fails for another reason; and whenever it gets there, the descriptors are replaced and nothing
else has changed. -/
theorem redirects (stdin stdout : D) (t : FdTable D) :
    ((∃ t', main (fun _ => true) stdin stdout t = .ok t') ↔
      t.get 0 ≠ none ∧ t.get 1 ≠ none) ∧
    ∀ ok t', main ok stdin stdout t = .ok t' →
      t'.get 0 = some stdin ∧ t'.get 1 = some stdout ∧
        ∀ m, m ≠ 0 → m ≠ 1 → t'.get m = t.get m := by
  refine ⟨⟨fun ⟨t', h⟩ => (main_ok h).1, ?_⟩, fun ok t' h => (main_ok h).2⟩
  rintro ⟨hopen₀, hopen₁⟩
  obtain ⟨t₁, h₁⟩ := exists_replace taken_of_lt_zero hopen₀ stdin
  obtain ⟨-, hin, hkeep⟩ := replace_ok taken_of_lt_zero h₁
  obtain ⟨t₂, h₂⟩ := exists_replace (taken_of_lt_one hin) (by rwa [hkeep 1 Nat.one_ne_zero]) stdout
  exact ⟨t₂, bind_eq_ok_iff.2 ⟨t₁, h₁, h₂⟩⟩

/-- A shell's descriptors: the program gets to its end and leaves three of them. -/
example : main (fun _ => true) 10 11 [some 0, some 1, some 2]
    = .ok [some 10, some 11, some 2, none] := by decide

end Redirect
