/-
**Buffered output of a process that forks.**

A process puts elements into a buffer.  A full buffer is written out when the next element comes,
and certain elements (a newline, if the buffer is line buffered) are written out at once, together
with what is before them.  A child gets a copy of what is in the buffer.  The children do nothing
but exit, and a process that exits writes out its buffer.  The processes take their steps in any
order.

The elements come one by one here.  A library may write a string that does not fit past the buffer;
glibc does so with buffers of less than 128 bytes.

Main definitions:

* `Stdio.Buffering` — when a buffer is written out;
* `Stdio.system` — the process and its children;
* `Stdio.pending` — what is left in the buffer after some text;
* `Stdio.leaks` — the copies that the children get.

Main results:

* `Stdio.next_perm` — a step neither loses nor adds anything, it may change the order;
* `Stdio.out_perm` — **what is written in the end**: the text and the copies, in some order;
* `Stdio.forall_out_eq_iff` — **the output is the text in every finished run** exactly when nothing
  is in the buffer at any fork;
* `Stdio.pending_eq_nil_iff` — if only a full buffer is written out, it is empty before the first
  element only.
-/

import AupPrograms.Lts
import Mathlib.Data.List.Perm.Basic

set_option relaxedAutoImplicit false
set_option autoImplicit false

universe u

namespace Stdio

variable {β : Type u}

/-! ### The buffer -/

/-- When a buffer is written out. -/
structure Buffering (β : Type u) where
  capacity : ℕ
  capacity_pos : 0 < capacity
  /-- The elements that are written out at once, with what is in the buffer. -/
  flushes : β → Bool

/-- Putting an element into the buffer: what is written out, and what is in the buffer then. -/
def Buffering.put (B : Buffering β) (buf : List β) (b : β) : List β × List β :=
  if B.flushes b = true then (buf ++ [b], [])
  else if buf.length < B.capacity then ([], buf ++ [b])
  -- the buffer is full
  else (buf, [b])

/-- An element that flushes the buffer. -/
theorem put_of_flushes {B : Buffering β} {b : β} (h : B.flushes b = true) (buf : List β) :
    B.put buf b = (buf ++ [b], []) := if_pos h

/-- An element for which there is room. -/
theorem put_of_room {B : Buffering β} {buf : List β} {b : β} (h : B.flushes b = false)
    (hroom : buf.length < B.capacity) : B.put buf b = ([], buf ++ [b]) := by
  rw [Buffering.put, h, if_neg Bool.false_ne_true, if_pos hroom]

/-- An element for which there is none. -/
theorem put_of_full {B : Buffering β} {buf : List β} {b : β} (h : B.flushes b = false)
    (hfull : ¬ buf.length < B.capacity) : B.put buf b = (buf, [b]) := by
  rw [Buffering.put, h, if_neg Bool.false_ne_true, if_neg hfull]

/-- What is in the buffer after some text. -/
def pending (B : Buffering β) (bs : List β) : List β :=
  bs.foldl (fun buf b => (B.put buf b).2) []

/-! ### The processes -/

/-- What the parent does. -/
inductive Op (β : Type u)
  | putc (b : β)
  | fork
  deriving DecidableEq

/-- The text that is printed. -/
def text (ops : List (Op β)) : List β :=
  ops.filterMap fun
    | .putc b => some b
    | .fork => none

structure State (β : Type u) where
  /-- What the parent has still to do. -/
  todo : List (Op β)
  exited : Bool
  buf : List β
  /-- The buffers of the children that have not exited. -/
  children : List (List β)
  out : List β

/-- The process that takes a step. -/
inductive Mover
  | parent
  | child (k : ℕ)
  deriving DecidableEq

/-- One step, and what is written in it. -/
def next (B : Buffering β) (s : State β) : Mover → Option (State β × List β)
  | .parent =>
      match s.todo with
      | .putc b :: ops =>
          let r := B.put s.buf b
          some ({ s with todo := ops, buf := r.2, out := s.out ++ r.1 }, r.1)
      | .fork :: ops => some ({ s with todo := ops, children := s.children ++ [s.buf] }, [])
      | [] =>
          if s.exited then none
          else some ({ s with exited := true, buf := [], out := s.out ++ s.buf }, s.buf)
  | .child k =>
      match s.children[k]? with
      | none => none
      | some buf => some ({ s with children := s.children.eraseIdx k, out := s.out ++ buf }, buf)

/-- The parent before its first step. -/
def start (ops : List (Op β)) : State β := ⟨ops, false, [], [], []⟩

/-- **The process and its children.** -/
def system (B : Buffering β) (ops : List (Op β)) : Lts (State β) (Mover × List β) :=
  Lts.ofNext (fun s => s = start ops) (next B)

/-- All processes have exited. -/
def State.Finished (s : State β) : Prop := s.todo = [] ∧ s.exited = true ∧ s.children = []

/-- The copies of the buffer that the children will get. -/
def leaks (B : Buffering β) : List β → List (Op β) → List (List β)
  | _, [] => []
  | buf, .putc b :: ops => leaks B (B.put buf b).2 ops
  | buf, .fork :: ops => buf :: leaks B buf ops

variable {B : Buffering β}

/-! ### What is written -/

theorem put_append (B : Buffering β) (buf : List β) (b : β) :
    (B.put buf b).1 ++ (B.put buf b).2 = buf ++ [b] := by
  rw [Buffering.put]
  split_ifs
  · exact List.append_nil _
  · rfl
  · rfl

/-- What the parent writes, if it writes everything. -/
def State.own (s : State β) : List β := s.out ++ s.buf ++ text s.todo

/-- What the children write. -/
def State.copies (B : Buffering β) (s : State β) : List (List β) :=
  s.children ++ leaks B s.buf s.todo

/-- A step of the parent changes nothing in what is written by whom. -/
theorem next_parent {s s' : State β} {w : List β} (h : next B s .parent = some (s', w)) :
    s'.own = s.own ∧ s'.copies B = s.copies B := by
  obtain ⟨todo, exited, buf, children, out⟩ := s
  rcases todo with _ | ⟨op, ops⟩
  · simp only [next] at h
    split_ifs at h
    cases h
    refine ⟨?_, rfl⟩
    simp only [State.own, List.append_nil]
  · cases op with
    | putc b =>
        cases h
        refine ⟨?_, rfl⟩
        have hput := put_append B buf b
        calc out ++ (B.put buf b).1 ++ (B.put buf b).2 ++ text ops
            = out ++ (buf ++ [b]) ++ text ops := by rw [List.append_assoc out, hput]
          _ = out ++ buf ++ (b :: text ops) := by simp only [List.append_assoc, List.cons_append,
              List.nil_append]
    | fork =>
        cases h
        refine ⟨rfl, ?_⟩
        simp only [State.copies, leaks, List.append_assoc, List.cons_append, List.nil_append]

/-- A child writes its copy of the buffer. -/
theorem next_child {s s' : State β} {w : List β} {k : ℕ} (h : next B s (.child k) = some (s', w)) :
    ∃ hk : k < s.children.length, w = s.children[k] ∧
      s' = { s with children := s.children.eraseIdx k, out := s.out ++ w } := by
  simp only [next] at h
  cases hk : s.children[k]? with
  | none =>
      rw [hk] at h
      cases h
  | some buf =>
      rw [hk] at h
      cases h
      obtain ⟨hlt, rfl⟩ := List.getElem?_eq_some_iff.1 hk
      exact ⟨hlt, rfl, rfl⟩

/-- **A step neither loses nor adds anything**, it may change the order. -/
theorem next_perm {s s' : State β} {m : Mover} {w : List β} (h : next B s m = some (s', w)) :
    (s'.own ++ (s'.copies B).flatten).Perm (s.own ++ (s.copies B).flatten) := by
  cases m with
  | parent =>
      obtain ⟨hown, hcopies⟩ := next_parent h
      rw [hown, hcopies]
  | child k =>
      obtain ⟨hk, rfl, rfl⟩ := next_child h
      have hsplit : (s.children[k] ++ (s.children.eraseIdx k).flatten).Perm s.children.flatten :=
        (List.getElem_cons_eraseIdx_perm hk).flatten
      have hcomm : (s.children[k] ++ ((s.buf ++ text s.todo) ++
          (s.children.eraseIdx k).flatten)).Perm ((s.buf ++ text s.todo) ++ s.children.flatten) :=
        (List.perm_append_comm_assoc _ _ _).trans (hsplit.append_left _)
      have hall := (hcomm.append_right (leaks B s.buf s.todo).flatten).append_left s.out
      simpa only [State.own, State.copies, List.flatten_append, List.append_assoc] using hall

section

variable {ops : List (Op β)} {as : List (Mover × List β)} {s : State β}

/-- A process that has exited has nothing in its buffer. -/
theorem buf_of_exited (h : (system B ops).Exec as s) :
    s.exited = true → s.todo = [] ∧ s.buf = [] := by
  refine Lts.Exec.state_invariant
    (I := fun s => s.exited = true → s.todo = [] ∧ s.buf = []) ?_ ?_ h
  · rintro s rfl hexited
    cases hexited
  · rintro ⟨todo, exited, buf, children, out⟩ ⟨m, w⟩ s' ih hs
    cases m with
    | parent =>
        rcases todo with _ | ⟨op, todo⟩
        · simp only [system, Lts.ofNext, next] at hs
          split_ifs at hs
          cases hs
          intro _
          exact ⟨rfl, rfl⟩
        · intro hexited
          have hrunning : exited = true := by
            cases op with
            | putc b =>
                cases hs
                exact hexited
            | fork =>
                cases hs
                exact hexited
          cases (ih hrunning).1
    | child k =>
        obtain ⟨hk, rfl, rfl⟩ := next_child hs
        exact ih

theorem State.Finished.own_eq (h : (system B ops).Exec as s) (hfin : s.Finished) :
    s.own = s.out ∧ s.copies B = [] := by
  obtain ⟨htodo, hexited, hchildren⟩ := hfin
  obtain ⟨-, hbuf⟩ := buf_of_exited h hexited
  constructor
  · rw [State.own, htodo, hbuf]
    simp only [text, List.filterMap_nil, List.append_nil]
  · rw [State.copies, htodo, hchildren]
    rfl

/-- **What is written in the end**: the text and the copies, in some order. -/
theorem out_perm (h : (system B ops).Exec as s) (hfin : s.Finished) :
    s.out.Perm (text ops ++ (leaks B [] ops).flatten) := by
  have hperm : (s.own ++ (s.copies B).flatten).Perm (text ops ++ (leaks B [] ops).flatten) := by
    refine Lts.Exec.state_invariant
      (I := fun s => (s.own ++ (s.copies B).flatten).Perm (text ops ++ (leaks B [] ops).flatten))
      ?_ ?_ h
    · rintro s rfl
      exact List.Perm.refl _
    · intro s a s' ih hs
      exact (next_perm hs).trans ih
  obtain ⟨hown, hcopies⟩ := State.Finished.own_eq h hfin
  rwa [hown, hcopies, List.flatten_nil, List.append_nil] at hperm

/-- If the copies are empty, the output is the text. -/
theorem out_eq_of_leaks (h : (system B ops).Exec as s) (hfin : s.Finished)
    (hleaks : ∀ bs ∈ leaks B [] ops, bs = []) : s.out = text ops := by
  have hinv : s.own = text ops ∧ ∀ bs ∈ s.copies B, bs = [] := by
    refine Lts.Exec.state_invariant
      (I := fun s => s.own = text ops ∧ ∀ bs ∈ s.copies B, bs = []) ?_ ?_ h
    · rintro s rfl
      exact ⟨rfl, hleaks⟩
    · rintro s ⟨m, w⟩ s' ⟨hown, hcopies⟩ hs
      cases m with
      | parent =>
          obtain ⟨hown', hcopies'⟩ := next_parent hs
          exact ⟨hown'.trans hown, hcopies' ▸ hcopies⟩
      | child k =>
          obtain ⟨hk, rfl, rfl⟩ := next_child hs
          have hempty : s.children[k] = [] :=
            hcopies _ (List.mem_append_left _ (List.getElem_mem hk))
          constructor
          · rw [← hown, State.own, hempty, List.append_nil]
            rfl
          · intro bs hbs
            refine hcopies bs ?_
            rcases List.mem_append.1 hbs with hmem | hmem
            · exact List.mem_append_left _ (List.mem_of_mem_eraseIdx hmem)
            · exact List.mem_append_right _ hmem
  rw [← (State.Finished.own_eq h hfin).1, hinv.1]

end

/-! ### Every run can be finished -/

section

variable (B) (ops : List (Op β))

/-- The parent can exit before any child does. -/
theorem exists_exited {s : State β} (hrunning : s.exited = false) :
    ∃ as s', (system B ops).Run s as s' ∧ s'.todo = [] ∧ s'.exited = true ∧ s'.out = s.own ∧
      s'.children = s.copies B := by
  obtain ⟨todo, exited, buf, children, out⟩ := s
  obtain rfl : exited = false := hrunning
  induction todo generalizing buf children out with
  | nil =>
      refine ⟨[(.parent, buf)], ⟨[], true, [], children, out ++ buf⟩, .single rfl, rfl, rfl, ?_, ?_⟩
      · exact (List.append_nil _).symm
      · exact (List.append_nil _).symm
  | cons op todo ih =>
      obtain ⟨s', w, hs⟩ : ∃ s' w, next B ⟨op :: todo, false, buf, children, out⟩ .parent =
          some (s', w) ∧ s'.todo = todo ∧ s'.exited = false := by
        cases op with
        | putc b => exact ⟨_, _, rfl, rfl, rfl⟩
        | fork => exact ⟨_, _, rfl, rfl, rfl⟩
      obtain ⟨hnext, rfl, hexited⟩ := hs
      obtain ⟨hown, hcopies⟩ := next_parent hnext
      obtain ⟨todo', exited', buf', children', out'⟩ := s'
      obtain rfl : exited' = false := hexited
      obtain ⟨as, s'', hrun, htodo, hexited', hout, hchildren⟩ := ih buf' children' out'
      exact ⟨(.parent, w) :: as, s'', .cons hnext hrun, htodo, hexited', hout.trans hown,
        hchildren.trans hcopies⟩

/-- And then the children can, one after the other. -/
theorem exists_drained {s : State β} (htodo : s.todo = []) (hexited : s.exited = true) :
    ∃ as s', (system B ops).Run s as s' ∧ s'.Finished ∧ s'.out = s.out ++ s.children.flatten := by
  obtain ⟨todo, exited, buf, children, out⟩ := s
  induction children generalizing out with
  | nil => exact ⟨[], _, .nil _, ⟨htodo, hexited, rfl⟩, (List.append_nil _).symm⟩
  | cons bs children ih =>
      obtain ⟨as, s', hrun, hfin, hout⟩ := ih (out ++ bs) htodo hexited
      refine ⟨(.child 0, bs) :: as, s', .cons rfl hrun, hfin, ?_⟩
      rw [hout, List.flatten_cons, List.append_assoc]

/-- **In some run the copies follow the text.** -/
theorem exists_finished :
    ∃ as s, (system B ops).Exec as s ∧ s.Finished ∧
      s.out = text ops ++ (leaks B [] ops).flatten := by
  obtain ⟨as, s, hrun, htodo, hexited, hout, hchildren⟩ :=
    exists_exited B ops (s := start ops) rfl
  obtain ⟨as', s', hrun', hfin, hout'⟩ := exists_drained B ops htodo hexited
  refine ⟨as ++ as', s', ⟨start ops, rfl, hrun.trans hrun'⟩, hfin, ?_⟩
  rw [hout', hout, hchildren]
  rfl

end

/-! ### When the output is the text -/

/-- The copies are what is in the buffer at the forks. -/
theorem forall_leaks_iff {buf : List β} {ops : List (Op β)} :
    (∀ bs ∈ leaks B buf ops, bs = []) ↔ ∀ xs ys, ops = xs ++ .fork :: ys →
      (text xs).foldl (fun buf b => (B.put buf b).2) buf = [] := by
  induction ops generalizing buf with
  | nil =>
      constructor
      · intro _ xs ys heq
        simp at heq
      · intro _ bs hbs
        cases hbs
  | cons op ops ih =>
      cases op with
      | putc b =>
          rw [leaks, ih]
          constructor
          · intro h xs ys heq
            cases xs with
            | nil => cases heq
            | cons op xs =>
                obtain ⟨rfl, hops⟩ := List.cons.inj heq
                exact h xs ys hops
          · intro h xs ys heq
            exact h (.putc b :: xs) ys (congrArg (.putc b :: ·) heq)
      | fork =>
          rw [leaks, List.forall_mem_cons, ih]
          constructor
          · rintro ⟨hbuf, h⟩ xs ys heq
            cases xs with
            | nil => exact hbuf
            | cons op xs =>
                obtain ⟨rfl, hops⟩ := List.cons.inj heq
                exact h xs ys hops
          · intro h
            refine ⟨h [] ops rfl, fun xs ys heq => ?_⟩
            exact h (.fork :: xs) ys (congrArg (.fork :: ·) heq)

/-- Nothing is in the buffer at any fork. -/
def Flushed (B : Buffering β) (ops : List (Op β)) : Prop :=
  ∀ xs ys, ops = xs ++ .fork :: ys → pending B (text xs) = []

/-- If something is in the buffer at a fork, every finished run writes more than the text. -/
theorem length_lt_of_not_flushed {ops : List (Op β)} {as : List (Mover × List β)} {s : State β}
    (h : (system B ops).Exec as s) (hfin : s.Finished) (hnot : ¬ Flushed B ops) :
    (text ops).length < s.out.length := by
  have hlen := (out_perm h hfin).length_eq
  rw [List.length_append] at hlen
  have hpos : (leaks B [] ops).flatten ≠ [] := by
    intro hnil
    exact hnot (forall_leaks_iff.1 (List.flatten_eq_nil_iff.1 hnil))
  have := List.length_pos_iff.2 hpos
  omega

/-- **The output is the text in every finished run** exactly when nothing is in the buffer at any
fork. -/
theorem forall_out_eq_iff (B : Buffering β) (ops : List (Op β)) :
    (∀ as s, (system B ops).Exec as s → s.Finished → s.out = text ops) ↔ Flushed B ops := by
  constructor
  · intro h
    by_contra hnot
    obtain ⟨as, s, hrun, hfin, -⟩ := exists_finished B ops
    have hlt := length_lt_of_not_flushed hrun hfin hnot
    rw [h as s hrun hfin] at hlt
    exact lt_irrefl _ hlt
  · intro h as s hrun hfin
    exact out_eq_of_leaks hrun hfin (forall_leaks_iff.2 h)

/-! ### What is in the buffer -/

theorem pending_append (B : Buffering β) (bs : List β) (b : β) :
    pending B (bs ++ [b]) = (B.put (pending B bs) b).2 := by
  rw [pending, List.foldl_append]
  rfl

/-- After an element that flushes the buffer nothing is left in it. -/
theorem pending_of_flushes (bs : List β) {b : β} (h : B.flushes b = true) :
    pending B (bs ++ [b]) = [] := by
  rw [pending_append, put_of_flushes h]

/-- **If only a full buffer is written out**, the last element is always in it. -/
theorem pending_eq_nil_iff (hblock : ∀ b, B.flushes b = false) {bs : List β} :
    pending B bs = [] ↔ bs = [] := by
  constructor
  · intro h
    rcases bs.eq_nil_or_concat' with hnil | ⟨bs, b, rfl⟩
    · exact hnil
    · rw [pending_append] at h
      by_cases hroom : (pending B bs).length < B.capacity
      · rw [put_of_room (hblock b) hroom] at h
        exact absurd h (List.append_ne_nil_of_right_ne_nil _ (List.cons_ne_nil b []))
      · rw [put_of_full (hblock b) hroom] at h
        cases h
  · rintro rfl
    rfl

/-- And a text that fits stays in it. -/
theorem pending_of_room (hblock : ∀ b, B.flushes b = false) {bs : List β}
    (h : bs.length ≤ B.capacity) : pending B bs = bs := by
  induction bs using List.reverseRecOn with
  | nil => rfl
  | append_singleton bs b ih =>
      rw [List.length_append, List.length_singleton] at h
      rw [pending_append, ih (by omega), put_of_room (hblock b) (by omega)]

/-- The first copy is what is left of the text before the first fork. -/
theorem leaks_of_putc (B : Buffering β) (bs : List β) (ops : List (Op β)) :
    leaks B [] (bs.map .putc ++ .fork :: ops) = pending B bs :: leaks B (pending B bs) ops := by
  have hgen : ∀ buf, leaks B buf (bs.map .putc ++ .fork :: ops) =
      bs.foldl (fun buf b => (B.put buf b).2) buf ::
        leaks B (bs.foldl (fun buf b => (B.put buf b).2) buf) ops := by
    induction bs with
    | nil => exact fun _ => rfl
    | cons b bs ih => exact fun buf => ih (B.put buf b).2
  exact hgen []

end Stdio
