/-
**Processes that fork, print and wait.**

A process prints through a buffer of its own, forks a child, which gets a copy of the buffer, goes
on printing while the child runs, waits for the child and then goes on.  The child is such a process
again, so that at any time the processes are a chain, each the child of the one before it, and any
of them may take the next step.  What such a program writes depends on the order of the steps and on
when the buffers are written out; this module says exactly how.

Main definitions:

* `ForkJoin.Interleaving`, `ForkJoin.shuffles` — two lists, each in its order;
* `ForkJoin.Prog` — what a process does;
* `ForkJoin.State`, `ForkJoin.next`, `ForkJoin.system` — a process with its descendants, and the
  steps they take;
* `ForkJoin.outs` — the sequences of writes, computed from the program.

Main results:

* `ForkJoin.traces_eq` — **what a program can write** is what `outs` computes, no more and no less;
* `ForkJoin.length_le`, `ForkJoin.exists_next`, `ForkJoin.exists_run_exited` — a run is bounded,
  never stuck, and can be continued to the end;
* `ForkJoin.text_mem_outs_unbuffered` — **a buffer only delays**: what a program writes through a
  buffer that is empty at every fork it can also write without one.
-/

import AupPrograms.Completion
import AupPrograms.Stdio

set_option relaxedAutoImplicit false
set_option autoImplicit false

universe u v

namespace ForkJoin

open Stdio (Buffering put_append put_of_flushes put_of_room put_of_full)

/-! ### Interleavings -/

section Interleavings

variable {α : Type u}

/-- `zs` has the elements of `xs` and those of `ys`, both in their order. -/
inductive Interleaving : List α → List α → List α → Prop
  | nil : Interleaving [] [] []
  | left {x : α} {xs ys zs : List α} (h : Interleaving xs ys zs) :
      Interleaving (x :: xs) ys (x :: zs)
  | right {y : α} {xs ys zs : List α} (h : Interleaving xs ys zs) :
      Interleaving xs (y :: ys) (y :: zs)

/-- `x` put before an interleaving with what is left of a list, at every place of the list. -/
def insertions (x : α) (f : List α → List (List α)) : List α → List (List α)
  | [] => (f []).map (x :: ·)
  | y :: ys => (f (y :: ys)).map (x :: ·) ++ (insertions x f ys).map (y :: ·)

/-- The interleavings of two lists. -/
def shuffles : List α → List α → List (List α)
  | [] => fun ys => [ys]
  | x :: xs => insertions x (shuffles xs)

theorem interleaving_nil_left {ys zs : List α} : Interleaving [] ys zs ↔ zs = ys := by
  constructor
  · intro h
    induction ys generalizing zs with
    | nil =>
        cases h
        rfl
    | cons y ys ih =>
        cases h with
        | right h => rw [ih h]
  · rintro rfl
    induction zs with
    | nil => exact .nil
    | cons z zs ih => exact ih.right

theorem mem_shuffles {xs ys zs : List α} : zs ∈ shuffles xs ys ↔ Interleaving xs ys zs := by
  induction xs generalizing ys zs with
  | nil => rw [interleaving_nil_left, shuffles, List.mem_singleton]
  | cons x xs ih =>
      rw [shuffles]
      induction ys generalizing zs with
      | nil =>
          simp only [insertions, List.mem_map, ih]
          constructor
          · rintro ⟨ws, hws, rfl⟩
            exact hws.left
          · rintro (_ | hws | _)
            exact ⟨_, hws, rfl⟩
      | cons y ys ihy =>
          simp only [insertions, List.mem_append, List.mem_map, ih, ihy]
          constructor
          · rintro (⟨ws, hws, rfl⟩ | ⟨ws, hws, rfl⟩)
            · exact hws.left
            · exact hws.right
          · rintro (_ | hws | hws)
            · exact Or.inl ⟨_, hws, rfl⟩
            · exact Or.inr ⟨_, hws, rfl⟩

theorem Interleaving.append_left {xs ys zs : List α} (ws : List α) (h : Interleaving xs ys zs) :
    Interleaving (ws ++ xs) ys (ws ++ zs) := by
  induction ws with
  | nil => exact h
  | cons w ws ih => exact ih.left

theorem Interleaving.append_right {xs ys zs : List α} (ws : List α) (h : Interleaving xs ys zs) :
    Interleaving xs (ws ++ ys) (ws ++ zs) := by
  induction ws with
  | nil => exact h
  | cons w ws ih => exact ih.right

/-- What comes last in one of the lists can come last of all. -/
theorem Interleaving.append_last {xs ys zs : List α} (ws : List α) (h : Interleaving xs ys zs) :
    Interleaving (xs ++ ws) ys (zs ++ ws) := by
  induction h with
  | nil => simpa using Interleaving.nil.append_left ws
  | left _ ih => exact ih.left
  | right _ ih => exact ih.right

theorem Interleaving.symm {xs ys zs : List α} (h : Interleaving xs ys zs) :
    Interleaving ys xs zs := by
  induction h with
  | nil => exact .nil
  | left _ ih => exact ih.right
  | right _ ih => exact ih.left

/-- Where blocks are interleaved, their elements are. -/
theorem Interleaving.flatten {xs ys zs : List (List α)} (h : Interleaving xs ys zs) :
    Interleaving xs.flatten ys.flatten zs.flatten := by
  induction h with
  | nil => exact .nil
  | left _ ih => exact ih.append_left _
  | right _ ih => exact ih.append_right _

theorem Interleaving.map {γ : Type*} (f : α → γ) {xs ys zs : List α} (h : Interleaving xs ys zs) :
    Interleaving (xs.map f) (ys.map f) (zs.map f) := by
  induction h with
  | nil => exact .nil
  | left _ ih => exact ih.left
  | right _ ih => exact ih.right

theorem Interleaving.perm {xs ys zs : List α} (h : Interleaving xs ys zs) :
    zs.Perm (xs ++ ys) := by
  induction h with
  | nil => exact List.Perm.refl _
  | left _ ih => exact ih.cons _
  | right _ ih => exact (ih.cons _).trans List.perm_middle.symm

end Interleavings

variable {β : Type u}

/-! ### Programs -/

/-- What a process does.  Between a fork and the wait for the child a process only prints. -/
inductive Prog (β : Type u)
  | exit
  | putc (b : β) (k : Prog β)
  /-- Waits without having a child: the call returns at once. -/
  | wait (k : Prog β)
  /-- Forks.  The parent prints `meanwhile`, waits for the child and goes on with `k`; so it does
  too if the fork fails, but then there is no child to wait for. -/
  | fork (child : Prog β) (meanwhile : List β) (k : Prog β)
  deriving DecidableEq

/-- Prints a text and goes on. -/
def Prog.print (text : List β) (k : Prog β) : Prog β := text.foldr .putc k

/-- A process with its descendants. -/
inductive State (β : Type u)
  | exited
  /-- A process that has no child. -/
  | alone (todo : Prog β) (buf : List β)
  /-- A process that has a child, what it still prints before it waits, and what it does then. -/
  | parent (left : List β) (k : Prog β) (buf : List β) (child : State β)
  deriving DecidableEq

/-- Who takes the step, counted from the first process, and whether a fork succeeds. -/
structure Choice where
  depth : ℕ
  granted : Bool
  deriving DecidableEq

/-- One step, and what is written in it. -/
def next (B : Buffering β) : State β → Choice → Option (State β × List β)
  | .exited, _ => none
  | .alone _ _, ⟨_ + 1, _⟩ => none
  | .alone .exit buf, ⟨0, _⟩ => some (.exited, buf)
  | .alone (.putc b k) buf, ⟨0, _⟩ => some (.alone k (B.put buf b).2, (B.put buf b).1)
  | .alone (.wait k) buf, ⟨0, _⟩ => some (.alone k buf, [])
  | .alone (.fork child meanwhile k) buf, ⟨0, true⟩ =>
      some (.parent meanwhile k buf (.alone child buf), [])
  | .alone (.fork _ meanwhile k) buf, ⟨0, false⟩ =>
      some (.alone (.print meanwhile (.wait k)) buf, [])
  | .parent (b :: left) k buf child, ⟨0, _⟩ =>
      some (.parent left k (B.put buf b).2 child, (B.put buf b).1)
  -- the parent waits, and goes on when the child has exited
  | .parent [] k buf .exited, ⟨0, _⟩ => some (.alone k buf, [])
  | .parent [] _ _ _, ⟨0, _⟩ => none
  | .parent left k buf child, ⟨n + 1, granted⟩ =>
      (next B child ⟨n, granted⟩).map fun r => (.parent left k buf r.1, r.2)

/-- **The program**, with all processes it has forked. -/
def system (B : Buffering β) (p : Prog β) : Lts (State β) (Choice × List β) :=
  Lts.ofNext (fun s => s = .alone p []) (next B)

/-! ### What is written -/

/-- What a step writes, as writes: nothing or one. -/
def writes : List β → List (List β)
  | [] => []
  | b :: bs => [b :: bs]

/-- The write that a label shows. -/
def written {γ : Type v} (a : γ × List β) : Option (List β) := (writes a.2).head?

/-- Printing a text: the writes, and what is in the buffer then. -/
def puts (B : Buffering β) : List β → List β → List (List β) × List β
  | buf, [] => ([], buf)
  | buf, b :: bs =>
      let r := puts B (B.put buf b).2 bs
      (writes (B.put buf b).1 ++ r.1, r.2)

/-- The writes of a process that prints `left` while its child makes the writes `ts`, and then waits
and makes the writes `after`. -/
def joined {α : Type u} (left : List α) (after ts : List (List α)) : List (List α) :=
  (ts.flatMap (shuffles left)).flatMap fun m => after.map (m ++ ·)

/-- **The sequences of writes** of a program that starts with `buf` in the buffer. -/
def outs (B : Buffering β) : Prog β → List β → List (List (List β))
  | .exit, buf => [writes buf]
  | .putc b k, buf => (outs B k (B.put buf b).2).map (writes (B.put buf b).1 ++ ·)
  | .wait k, buf => outs B k buf
  | .fork child meanwhile k, buf =>
      let r := puts B buf meanwhile
      joined r.1 (outs B k r.2) (outs B child buf) ++ (outs B k r.2).map (r.1 ++ ·)

/-- The sequences of writes that are still to come. -/
def rest (B : Buffering β) : State β → List (List (List β))
  | .exited => [[]]
  | .alone p buf => outs B p buf
  | .parent left k buf child =>
      joined (puts B buf left).1 (outs B k (puts B buf left).2) (rest B child)

variable {B : Buffering β}

theorem mem_joined {α : Type u} {left t : List α} {after ts : List (List α)} :
    t ∈ joined left after ts ↔
      ∃ c ∈ ts, ∃ m r, Interleaving left c m ∧ r ∈ after ∧ t = m ++ r := by
  simp only [joined, List.mem_flatMap, List.mem_map, mem_shuffles]
  constructor
  · rintro ⟨m, ⟨c, hc, hm⟩, r, hr, rfl⟩
    exact ⟨c, hc, m, r, hm, hr, rfl⟩
  · rintro ⟨c, hc, m, r, hm, hr, rfl⟩
    exact ⟨m, ⟨c, hc, hm⟩, r, hr, rfl⟩

/-- Printing a text and going on. -/
theorem outs_print (text : List β) (k : Prog β) (buf : List β) :
    outs B (.print text k) buf
      = (outs B k (puts B buf text).2).map ((puts B buf text).1 ++ ·) := by
  induction text generalizing buf with
  | nil => simp [Prog.print, puts]
  | cons b bs ih =>
      have hcons : Prog.print (b :: bs) k = .putc b (.print bs k) := rfl
      rw [hcons, outs, ih, puts, List.map_map]
      refine List.map_congr_left fun t _ => ?_
      simp only [Function.comp_apply, List.append_assoc]

/-- A step writes at most once. -/
theorem writes_tail {w x : List β} {xs : List (List β)} (h : writes w = x :: xs) : xs = [] := by
  cases w with
  | nil => cases h
  | cons b bs => exact (List.cons.inj h).2.symm

theorem filterMap_written_cons {γ : Type v} (a : γ × List β) (as : List (γ × List β)) :
    (a :: as).filterMap written = writes a.2 ++ as.filterMap written := by
  obtain ⟨c, w⟩ := a
  cases w <;> rfl

/-! ### A step and what is still to come -/

/-- **What a step writes, and what may come after it, could come before it.** -/
theorem mem_rest_of_next {s s' : State β} {c : Choice} {w : List β} {t : List (List β)}
    (h : next B s c = some (s', w)) (ht : t ∈ rest B s') : writes w ++ t ∈ rest B s := by
  obtain ⟨n, granted⟩ := c
  induction s generalizing n s' t with
  | exited => cases h
  | alone todo buf =>
      cases n with
      | succ n => cases h
      | zero =>
          cases todo with
          | exit =>
              cases h
              rw [rest, List.mem_singleton] at ht
              rw [ht, List.append_nil]
              exact List.mem_singleton_self _
          | putc b k =>
              cases h
              exact List.mem_map_of_mem ht
          | wait k =>
              cases h
              exact ht
          | fork child meanwhile k =>
              cases granted with
              | true =>
                  cases h
                  exact List.mem_append_left _ ht
              | false =>
                  cases h
                  rw [rest, outs_print] at ht
                  exact List.mem_append_right _ ht
  | parent left k buf child ih =>
      cases n with
      | zero =>
          cases left with
          | cons b left =>
              cases h
              obtain ⟨cs, hcs, m, r, hm, hr, rfl⟩ := mem_joined.1 ht
              refine mem_joined.2 ⟨cs, hcs, _, r, hm.append_left _, hr, ?_⟩
              rw [List.append_assoc]
          | nil =>
              cases child with
              | exited =>
                  cases h
                  refine mem_joined.2 ⟨[], List.mem_singleton_self _, [], t, .nil, ht, rfl⟩
              | alone p b => cases h
              | parent l p b g => cases h
      | succ n =>
          simp only [next, Option.map_eq_some_iff] at h
          obtain ⟨⟨child', w'⟩, hnext, heq⟩ := h
          obtain ⟨rfl, rfl⟩ := Prod.mk.inj heq
          obtain ⟨cs, hcs, m, r, hm, hr, rfl⟩ := mem_joined.1 ht
          refine mem_joined.2 ⟨_, ih hcs n hnext, _, r, hm.append_right _, hr, ?_⟩
          rw [List.append_assoc]

/-- Some step makes the first of the writes `t` or none, and the others may come after it. -/
def Begins (B : Buffering β) (s : State β) (t : List (List β)) : Prop :=
  ∃ c s' w t', next B s c = some (s', w) ∧ t' ∈ rest B s' ∧ t = writes w ++ t'

section

variable {left : List β} {k : Prog β} {buf : List β} {child : State β} {m r : List (List β)}

/-- A step of the child, whose write is at the front of the interleaving. -/
theorem Begins.of_child {c : Choice} {s' : State β} {w : List β} {ts : List (List β)}
    (hnext : next B child c = some (s', w)) (hts : ts ∈ rest B s')
    (hm : Interleaving (puts B buf left).1 ts m) (hr : r ∈ outs B k (puts B buf left).2) :
    Begins B (.parent left k buf child) (writes w ++ m ++ r) := by
  obtain ⟨n, granted⟩ := c
  refine ⟨⟨n + 1, granted⟩, .parent left k buf s', w, m ++ r, ?_, ?_, List.append_assoc _ _ _⟩
  · simp only [next, hnext, Option.map_some]
  · exact mem_joined.2 ⟨ts, hts, m, r, hm, hr, rfl⟩

/-- A step of the parent, whose write is at the front of the interleaving. -/
theorem Begins.of_parent {b : β} {ts : List (List β)} (hts : ts ∈ rest B child)
    (hm : Interleaving (puts B (B.put buf b).2 left).1 ts m)
    (hr : r ∈ outs B k (puts B (B.put buf b).2 left).2) :
    Begins B (.parent (b :: left) k buf child) (writes (B.put buf b).1 ++ m ++ r) := by
  refine ⟨⟨0, true⟩, .parent left k (B.put buf b).2 child, (B.put buf b).1, m ++ r, rfl, ?_,
    List.append_assoc _ _ _⟩
  exact mem_joined.2 ⟨ts, hts, m, r, hm, hr, rfl⟩

end

/-- **What may come can be begun** as long as a process is left. -/
theorem begins_of_mem_rest {s : State β} {t : List (List β)} (ht : t ∈ rest B s) :
    (s = .exited ∧ t = []) ∨ Begins B s t := by
  induction s generalizing t with
  | exited => exact Or.inl ⟨rfl, List.mem_singleton.1 ht⟩
  | alone todo buf =>
      right
      cases todo with
      | exit =>
          obtain rfl := List.mem_singleton.1 ht
          exact ⟨⟨0, true⟩, .exited, buf, [], rfl, List.mem_singleton_self _,
            (List.append_nil _).symm⟩
      | putc b k =>
          obtain ⟨t', ht', rfl⟩ := List.mem_map.1 ht
          exact ⟨⟨0, true⟩, _, _, t', rfl, ht', rfl⟩
      | wait k => exact ⟨⟨0, true⟩, _, _, t, rfl, ht, rfl⟩
      | fork child meanwhile k =>
          rcases List.mem_append.1 ht with ht | ht
          · exact ⟨⟨0, true⟩, _, _, t, rfl, ht, rfl⟩
          · refine ⟨⟨0, false⟩, _, _, t, rfl, ?_, rfl⟩
            rw [rest, outs_print]
            exact ht
  | parent left k buf child ih =>
      right
      obtain ⟨cs, hcs, m, r, hm, hr, rfl⟩ := mem_joined.1 ht
      cases left with
      | nil =>
          obtain rfl : m = cs := interleaving_nil_left.1 hm
          rcases ih hcs with ⟨rfl, rfl⟩ | ⟨c, s', w, ts, hnext, hts, rfl⟩
          · exact ⟨⟨0, true⟩, .alone k buf, [], r, rfl, hr, rfl⟩
          · exact .of_child hnext hts (interleaving_nil_left.2 rfl) hr
      | cons b left =>
          cases hw : writes (B.put buf b).1 with
          | nil =>
              have hputs : (puts B buf (b :: left)).1 = (puts B (B.put buf b).2 left).1 := by
                rw [puts, hw, List.nil_append]
              rw [hputs] at hm
              have hbegin := Begins.of_parent hcs hm hr
              rwa [hw, List.nil_append] at hbegin
          | cons x xs =>
              have hputs : (puts B buf (b :: left)).1
                  = x :: (xs ++ (puts B (B.put buf b).2 left).1) := by
                rw [puts, hw, List.cons_append]
              rw [hputs] at hm
              cases hm with
              | left hm' =>
                  -- the step writes at most once
                  obtain rfl : xs = [] := writes_tail hw
                  have hbegin := Begins.of_parent hcs hm' hr
                  rwa [hw] at hbegin
              | @right y _ ys zs hm' =>
                  rcases ih hcs with ⟨-, hnil⟩ | ⟨c, s', w, ts, hnext, hts, heq⟩
                  · cases hnil
                  · rw [← hputs] at hm'
                    cases w with
                    | nil =>
                        obtain rfl : y :: ys = ts := heq
                        exact .of_child hnext hts hm'.right hr
                    | cons d ds =>
                        obtain ⟨rfl, rfl⟩ := List.cons.inj heq
                        exact .of_child hnext hts hm' hr

/-! ### Every run ends -/

/-- The number of steps that a program can take. -/
def Prog.size : Prog β → ℕ
  | .exit => 1
  | .putc _ k => k.size + 1
  | .wait k => k.size + 1
  | .fork child meanwhile k => child.size + meanwhile.length + k.size + 2

/-- The number of steps that are left. -/
def State.size : State β → ℕ
  | .exited => 0
  | .alone p _ => p.size
  | .parent left k _ child => left.length + k.size + 1 + child.size

theorem size_print (text : List β) (k : Prog β) :
    (Prog.print text k).size = text.length + k.size := by
  induction text with
  | nil => exact (Nat.zero_add _).symm
  | cons b bs ih =>
      have hcons : (Prog.print (b :: bs) k).size = (Prog.print bs k).size + 1 := rfl
      rw [hcons, ih, List.length_cons]
      omega

theorem next_size {s s' : State β} {c : Choice} {w : List β} (h : next B s c = some (s', w)) :
    s'.size + 1 ≤ s.size := by
  obtain ⟨n, granted⟩ := c
  induction s generalizing n s' with
  | exited => cases h
  | alone todo buf =>
      cases n with
      | succ n => cases h
      | zero =>
          cases todo with
          | exit =>
              cases h
              exact Nat.le_refl _
          | putc b k =>
              cases h
              exact Nat.le_refl _
          | wait k =>
              cases h
              exact Nat.le_refl _
          | fork child meanwhile k =>
              cases granted with
              | true =>
                  cases h
                  simp only [State.size, Prog.size]
                  omega
              | false =>
                  cases h
                  simp only [State.size, Prog.size, size_print]
                  omega
  | parent left k buf child ih =>
      cases n with
      | zero =>
          cases left with
          | cons b left =>
              cases h
              simp only [State.size, List.length_cons]
              omega
          | nil =>
              cases child with
              | exited =>
                  cases h
                  simp only [State.size, List.length_nil]
                  omega
              | alone p b => cases h
              | parent l p b g => cases h
      | succ n =>
          simp only [next, Option.map_eq_some_iff] at h
          obtain ⟨⟨child', w'⟩, hnext, heq⟩ := h
          obtain ⟨rfl, rfl⟩ := Prod.mk.inj heq
          have hchild := ih n hnext
          simp only [State.size]
          omega

theorem pays (B : Buffering β) (p : Prog β) : (system B p).Pays State.size fun _ => 0 := by
  intro as s a s' _ hs
  exact next_size hs

/-- **A run is bounded.** -/
theorem length_le {p : Prog β} {as : List (Choice × List β)} {s : State β}
    (h : (system B p).Exec as s) : as.length + s.size ≤ p.size := by
  have hle := (pays B p).length_le (n := p.size) (fun s hs => by rw [hs]; rfl) h
  simpa using hle

/-- **A run is never stuck** before all processes have exited. -/
theorem exists_next (B : Buffering β) {s : State β} (h : s ≠ .exited) :
    ∃ c r, next B s c = some r := by
  induction s with
  | exited => exact absurd rfl h
  | alone todo buf =>
      cases todo with
      | exit => exact ⟨⟨0, true⟩, _, rfl⟩
      | putc b k => exact ⟨⟨0, true⟩, _, rfl⟩
      | wait k => exact ⟨⟨0, true⟩, _, rfl⟩
      | fork child meanwhile k => exact ⟨⟨0, true⟩, _, rfl⟩
  | parent left k buf child ih =>
      by_cases hchild : child = .exited
      · obtain rfl := hchild
        cases left with
        | nil => exact ⟨⟨0, true⟩, _, rfl⟩
        | cons b left => exact ⟨⟨0, true⟩, _, rfl⟩
      · obtain ⟨⟨n, granted⟩, r, hnext⟩ := ih hchild
        exact ⟨⟨n + 1, granted⟩, (.parent left k buf r.1, r.2), by simp only [next, hnext,
          Option.map_some]⟩

/-- Every run can be continued until all processes have exited. -/
theorem exists_run_exited {p : Prog β} {as : List (Choice × List β)} {s : State β}
    (h : (system B p).Exec as s) : ∃ bs, (system B p).Run s bs .exited := by
  obtain ⟨bs, s', hrun, hend⟩ := (pays B p).exists_terminal h
  obtain rfl : s' = .exited := by
    by_contra hne
    obtain ⟨c, r, hnext⟩ := exists_next B hne
    exact hend (c, r.2) r.1 hnext
  exact ⟨bs, hrun⟩

/-! ### What a program can write -/

theorem exists_run_of_mem_rest {p : Prog β} {s : State β} {t : List (List β)}
    (ht : t ∈ rest B s) :
    ∃ as, (system B p).Run s as .exited ∧ as.filterMap written = t := by
  induction hn : s.size using Nat.strong_induction_on generalizing s t with
  | _ n ih =>
      rcases begins_of_mem_rest ht with ⟨rfl, rfl⟩ | ⟨c, s', w, t', hnext, ht', rfl⟩
      · exact ⟨[], Lts.Run.nil _, rfl⟩
      · have hsize := next_size hnext
        obtain ⟨as, hrun, htrace⟩ := ih s'.size (by omega) ht' rfl
        refine ⟨(c, w) :: as, hrun.cons hnext, ?_⟩
        rw [filterMap_written_cons, htrace]

/-- What has been written, and what may come, is what the program can write. -/
theorem append_mem_outs {p : Prog β} {as : List (Choice × List β)} {s : State β}
    (h : (system B p).Exec as s) : ∀ t ∈ rest B s, as.filterMap written ++ t ∈ outs B p [] := by
  refine Lts.Exec.invariant
    (I := fun as s => ∀ t ∈ rest B s, as.filterMap written ++ t ∈ outs B p []) ?_ ?_ h
  · rintro s rfl t ht
    exact ht
  · intro as s a s' _ ih hs t ht
    have hbefore := ih _ (mem_rest_of_next hs ht)
    rwa [List.filterMap_append, filterMap_written_cons, List.filterMap_nil, List.append_nil,
      List.append_assoc]

/-- **What a program can write**: the writes of its finished runs, in their order, are the ones
that `outs` computes. -/
theorem traces_eq (B : Buffering β) (p : Prog β) :
    (system B p).traces written (· = .exited) = {t | t ∈ outs B p []} := by
  ext t
  constructor
  · rintro ⟨as, s, hr, rfl, rfl⟩
    simpa using append_mem_outs hr [] (List.mem_singleton_self _)
  · intro ht
    obtain ⟨as, hrun, rfl⟩ := exists_run_of_mem_rest (p := p) (s := .alone p []) ht
    exact ⟨as, .exited, ⟨.alone p [], rfl, hrun⟩, rfl, rfl⟩

/-! ### The text -/

/-- The text that a run writes. -/
def text (as : List (Choice × List β)) : List β := (as.map Prod.snd).flatten

theorem flatten_writes (w : List β) : (writes w).flatten = w := by
  cases w with
  | nil => rfl
  | cons b bs => exact List.append_nil _

theorem flatten_filterMap_written (as : List (Choice × List β)) :
    (as.filterMap written).flatten = text as := by
  induction as with
  | nil => rfl
  | cons a as ih =>
      rw [filterMap_written_cons, List.flatten_append, flatten_writes, ih]
      rfl

/-- What holds of every text that a program can write. -/
theorem forall_text_iff {p : Prog β} {Q : List β → Prop} :
    (∀ as, (system B p).Exec as .exited → Q (text as)) ↔ ∀ t ∈ outs B p [], Q t.flatten := by
  constructor
  · intro h t ht
    have htrace : t ∈ (system B p).traces written (· = .exited) := by
      rw [traces_eq]
      exact ht
    obtain ⟨as, s, hr, rfl, rfl⟩ := htrace
    rw [flatten_filterMap_written]
    exact h as hr
  · intro h as hr
    have ht : as.filterMap written ∈ (system B p).traces written (· = .exited) :=
      ⟨as, .exited, hr, rfl, rfl⟩
    rw [traces_eq] at ht
    rw [← flatten_filterMap_written]
    exact h _ ht

/-- What is printed is written or in the buffer. -/
theorem puts_append (B : Buffering β) (buf bs : List β) :
    (puts B buf bs).1.flatten ++ (puts B buf bs).2 = buf ++ bs := by
  induction bs generalizing buf with
  | nil => exact (List.append_nil buf).symm
  | cons b bs ih =>
      rw [puts, List.flatten_append, flatten_writes, List.append_assoc, ih, ← List.append_assoc,
        put_append, List.append_assoc]
      rfl

/-- A process that only prints and exits. -/
theorem flatten_of_mem_outs_print {t : List (List β)} {bs buf : List β}
    (h : t ∈ outs B (.print bs .exit) buf) : t.flatten = buf ++ bs := by
  rw [outs_print] at h
  obtain ⟨r, hr, rfl⟩ := List.mem_map.1 h
  obtain rfl := List.mem_singleton.1 hr
  rw [List.flatten_append, flatten_writes, puts_append]

theorem exists_mem_outs_print (B : Buffering β) (bs buf : List β) :
    ∃ t, t ∈ outs B (.print bs .exit) buf := by
  rw [outs_print]
  exact ⟨_, List.mem_map_of_mem (List.mem_singleton_self _)⟩

/-- A text that stays in the buffer, if it is the first one there. -/
def Held (B : Buffering β) (bs : List β) : Prop :=
  (∀ b ∈ bs, B.flushes b = false) ∧ bs.length ≤ B.capacity

theorem puts_of_held (buf : List β) {bs : List β} (h : Held B (buf ++ bs)) :
    puts B buf bs = ([], buf ++ bs) := by
  induction bs generalizing buf with
  | nil => rw [puts, List.append_nil]
  | cons b bs ih =>
      obtain ⟨hflush, hlen⟩ := h
      have hput : B.put buf b = ([], buf ++ [b]) := by
        rw [List.length_append, List.length_cons] at hlen
        exact put_of_room (hflush b (by simp)) (by omega)
      rw [puts, hput, ih _ ?_]
      · simp only [writes, List.append_assoc, List.singleton_append, List.nil_append]
      · rw [List.append_assoc]
        exact ⟨hflush, hlen⟩

theorem put_of_writes_eq_nil {buf : List β} {b : β} (h : writes (B.put buf b).1 = []) :
    B.flushes b = false ∧ buf.length < B.capacity ∧ B.put buf b = ([], buf ++ [b]) := by
  have hnone : (B.put buf b).1 = [] := by
    rw [← flatten_writes (B.put buf b).1, h, List.flatten_nil]
  cases hflush : B.flushes b with
  | true =>
      rw [put_of_flushes hflush] at hnone
      exact absurd hnone (List.append_ne_nil_of_right_ne_nil buf (List.cons_ne_nil b []))
  | false =>
      have hroom : buf.length < B.capacity := by
        by_contra hfull
        -- a full buffer is not empty
        rw [put_of_full hflush hfull] at hnone
        obtain rfl : buf = [] := hnone
        exact hfull B.capacity_pos
      exact ⟨rfl, hroom, put_of_room hflush hroom⟩

theorem held_of_puts (buf : List β) {bs : List β} (hbuf : buf.length ≤ B.capacity)
    (h : (puts B buf bs).1 = []) :
    (∀ b ∈ bs, B.flushes b = false) ∧ buf.length + bs.length ≤ B.capacity := by
  induction bs generalizing buf with
  | nil =>
      refine ⟨?_, hbuf⟩
      intro b hb
      cases hb
  | cons b bs ih =>
      obtain ⟨hwrites, hrest⟩ := List.append_eq_nil_iff.1 h
      obtain ⟨hflush, hroom, hput⟩ := put_of_writes_eq_nil hwrites
      rw [hput] at hrest
      obtain ⟨hflushes, hlen⟩ :=
        ih _ (by rw [List.length_append, List.length_singleton]; omega) hrest
      refine ⟨?_, ?_⟩
      · intro c hc
        rcases List.mem_cons.1 hc with rfl | hc
        · exact hflush
        · exact hflushes c hc
      · simp only [List.length_append, List.length_cons, List.length_nil] at hlen ⊢
        omega

/-- Nothing of a text is written exactly if it stays in the buffer. -/
theorem puts_eq_nil_iff {bs : List β} : (puts B [] bs).1 = [] ↔ Held B bs := by
  constructor
  · intro h
    obtain ⟨hflush, hlen⟩ := held_of_puts [] (Nat.zero_le _) h
    rw [List.length_nil, Nat.zero_add] at hlen
    exact ⟨hflush, hlen⟩
  · intro h
    rw [puts_of_held [] h]

/-- What is written of a text begins as the text does. -/
theorem head?_of_puts {bs : List β} (h : (puts B [] bs).1 ≠ []) :
    (puts B [] bs).1.flatten.head? = bs.head? := by
  have hne : ∀ (buf bs : List β), ∀ w ∈ (puts B buf bs).1, w ≠ [] := by
    intro buf bs
    induction bs generalizing buf with
    | nil =>
        intro w hw
        cases hw
    | cons b bs ih =>
        intro w hw
        rcases List.mem_append.1 hw with hw | hw
        · cases hput : (B.put buf b).1 with
          | nil =>
              rw [hput] at hw
              cases hw
          | cons x xs =>
              rw [hput] at hw
              rw [List.mem_singleton.1 hw]
              exact List.cons_ne_nil _ _
        · exact ih _ w hw
  have happend := puts_append B [] bs
  cases hw : (puts B [] bs).1 with
  | nil => exact absurd hw h
  | cons w ws =>
      have hwne := hne [] bs w (by rw [hw]; exact List.mem_cons_self)
      obtain ⟨x, xs, rfl⟩ := List.exists_cons_of_ne_nil hwne
      rw [hw, List.nil_append] at happend
      rw [← happend]
      rfl

/-! ### A buffer only delays -/

/-- Every element is written at once, by itself. -/
def unbuffered : Buffering β := ⟨1, Nat.one_pos, fun _ => true⟩

/-- The buffer is empty at every fork. -/
def EmptyAtForks (B : Buffering β) : Prog β → List β → Prop
  | .exit, _ => True
  | .putc b k, buf => EmptyAtForks B k (B.put buf b).2
  | .wait k, buf => EmptyAtForks B k buf
  | .fork child meanwhile k, buf =>
      buf = [] ∧ EmptyAtForks B child [] ∧ EmptyAtForks B k (puts B [] meanwhile).2

theorem put_unbuffered (b : β) : unbuffered.put [] b = ([b], []) := rfl

theorem puts_unbuffered (bs : List β) : puts unbuffered [] bs = (bs.map ([·]), []) := by
  induction bs with
  | nil => rfl
  | cons b bs ih =>
      rw [puts, put_unbuffered, ih]
      rfl

/-- Without a buffer every element is written on its own. -/
theorem length_of_mem_outs_unbuffered {p : Prog β} {t : List (List β)}
    (h : t ∈ outs unbuffered p []) : ∀ w ∈ t, w.length = 1 := by
  induction p generalizing t with
  | exit =>
      obtain rfl := List.mem_singleton.1 h
      intro w hw
      cases hw
  | putc b k ih =>
      obtain ⟨t, ht, rfl⟩ := List.mem_map.1 h
      intro w hw
      rcases List.mem_cons.1 hw with rfl | hw
      · rfl
      · exact ih ht w hw
  | wait k ih => exact ih h
  | fork child meanwhile k ihchild ihk =>
      rw [outs, puts_unbuffered] at h
      have hprinted : ∀ w ∈ meanwhile.map ([·]), w.length = 1 := by
        intro w hw
        obtain ⟨b, -, rfl⟩ := List.mem_map.1 hw
        rfl
      intro w hw
      rcases List.mem_append.1 h with h | h
      · obtain ⟨c, hc, m, r, hm, hr, rfl⟩ := mem_joined.1 h
        rcases List.mem_append.1 hw with hw | hw
        · rcases List.mem_append.1 (hm.perm.mem_iff.1 hw) with hw | hw
          · exact hprinted w hw
          · exact ihchild hc w hw
        · exact ihk hr w hw
      · obtain ⟨r, hr, rfl⟩ := List.mem_map.1 h
        rcases List.mem_append.1 hw with hw | hw
        · exact hprinted w hw
        · exact ihk hr w hw

theorem flatten_singles (bs : List β) : (bs.map ([·])).flatten = bs := by
  rw [← List.flatMap_def, List.flatMap_singleton']

theorem eq_map_flatten {t : List (List β)} (h : ∀ w ∈ t, w.length = 1) :
    t = t.flatten.map ([·]) := by
  induction t with
  | nil => rfl
  | cons w t ih =>
      obtain ⟨b, rfl⟩ := List.length_eq_one_iff.1 (h w List.mem_cons_self)
      rw [List.flatten_cons, List.map_append, ← ih fun w hw => h w (List.mem_cons_of_mem _ hw)]
      rfl

/-- **A buffer only delays**: a text that a program writes through a buffer, which is empty at every
fork, it can also write without a buffer. -/
theorem text_mem_outs_unbuffered {p : Prog β} {buf : List β} {t : List (List β)}
    (hempty : EmptyAtForks B p buf) (ht : t ∈ outs B p buf) :
    ∃ u ∈ outs unbuffered p [], t.flatten = buf ++ u.flatten := by
  induction p generalizing buf t with
  | exit =>
      obtain rfl := List.mem_singleton.1 ht
      refine ⟨[], List.mem_singleton_self _, ?_⟩
      rw [flatten_writes, List.flatten_nil, List.append_nil]
  | putc b k ih =>
      obtain ⟨t', ht', rfl⟩ := List.mem_map.1 ht
      obtain ⟨u, hu, htext⟩ := ih hempty ht'
      refine ⟨[b] :: u, List.mem_map_of_mem hu, ?_⟩
      calc (writes (B.put buf b).1 ++ t').flatten
          = (B.put buf b).1 ++ t'.flatten := by rw [List.flatten_append, flatten_writes]
        _ = (B.put buf b).1 ++ (B.put buf b).2 ++ u.flatten := by rw [htext, List.append_assoc]
        _ = buf ++ [b] ++ u.flatten := by rw [put_append]
        _ = buf ++ ([b] :: u).flatten := by rw [List.append_assoc, List.flatten_cons]
  | wait k ih => exact ih hempty ht
  | fork child meanwhile k ihchild ihk =>
      obtain ⟨rfl, hchild, hk⟩ := hempty
      have hputs := puts_append B [] meanwhile
      rw [outs, List.mem_append] at ht
      rcases ht with ht | ht
      · obtain ⟨c, hc, m, r, hm, hr, rfl⟩ := mem_joined.1 ht
        obtain ⟨uc, huc, hctext⟩ := ihchild hchild hc
        obtain ⟨ur, hur, hrtext⟩ := ihk hk hr
        -- what the parent keeps in its buffer it may print just before it waits
        have hm' := (hm.flatten.append_last (puts B [] meanwhile).2).map ([·])
        rw [hputs, hctext, List.nil_append, List.nil_append,
          ← eq_map_flatten (length_of_mem_outs_unbuffered huc)] at hm'
        refine ⟨(m.flatten ++ (puts B [] meanwhile).2).map ([·]) ++ ur, ?_, ?_⟩
        · rw [outs, puts_unbuffered]
          exact List.mem_append_left _ (mem_joined.2 ⟨uc, huc, _, ur, hm', hur, rfl⟩)
        · rw [List.flatten_append, List.flatten_append, hrtext, flatten_singles,
            List.append_assoc]
          rfl
      · obtain ⟨r, hr, rfl⟩ := List.mem_map.1 ht
        obtain ⟨ur, hur, hrtext⟩ := ihk hk hr
        refine ⟨meanwhile.map ([·]) ++ ur, ?_, ?_⟩
        · rw [outs, puts_unbuffered]
          exact List.mem_append_right _ (List.mem_map_of_mem hur)
        · rw [List.flatten_append, List.flatten_append, hrtext, flatten_singles,
            ← List.append_assoc, hputs]
          rfl

/-! ### The texts that can be printed -/

/-- `z` can be printed, when everything is written at once. -/
def Prints (p : Prog β) (z : List β) : Prop := ∃ t ∈ outs unbuffered p [], t.flatten = z

theorem prints_print {bs z : List β} : Prints (.print bs .exit) z ↔ z = bs := by
  constructor
  · rintro ⟨t, ht, rfl⟩
    exact flatten_of_mem_outs_print ht
  · rintro rfl
    obtain ⟨t, ht⟩ := exists_mem_outs_print unbuffered z []
    exact ⟨t, ht, flatten_of_mem_outs_print ht⟩

/-- What a process prints that forks. -/
theorem prints_fork {child k : Prog β} {meanwhile z : List β} :
    Prints (.fork child meanwhile k) z ↔
      (∃ x m y, Prints child x ∧ Interleaving meanwhile x m ∧ Prints k y ∧ z = m ++ y) ∨
        ∃ y, Prints k y ∧ z = meanwhile ++ y := by
  rw [Prints, outs, puts_unbuffered]
  constructor
  · rintro ⟨t, ht, rfl⟩
    rcases List.mem_append.1 ht with ht | ht
    · obtain ⟨c, hc, m, r, hm, hr, rfl⟩ := mem_joined.1 ht
      refine Or.inl ⟨c.flatten, m.flatten, r.flatten, ⟨c, hc, rfl⟩, ?_, ⟨r, hr, rfl⟩, ?_⟩
      · simpa only [flatten_singles] using hm.flatten
      · rw [List.flatten_append]
    · obtain ⟨r, hr, rfl⟩ := List.mem_map.1 ht
      refine Or.inr ⟨r.flatten, ⟨r, hr, rfl⟩, ?_⟩
      rw [List.flatten_append, flatten_singles]
  · rintro (⟨x, m, y, ⟨c, hc, rfl⟩, hm, ⟨r, hr, rfl⟩, rfl⟩ | ⟨y, ⟨r, hr, rfl⟩, rfl⟩)
    · have hm' := hm.map ([·])
      rw [← eq_map_flatten (length_of_mem_outs_unbuffered hc)] at hm'
      have hmem := mem_joined.2 ⟨c, hc, _, r, hm', hr, rfl⟩
      refine ⟨m.map ([·]) ++ r, List.mem_append_left _ hmem, ?_⟩
      rw [List.flatten_append, flatten_singles]
    · refine ⟨meanwhile.map ([·]) ++ r, List.mem_append_right _ (List.mem_map_of_mem hr), ?_⟩
      rw [List.flatten_append, flatten_singles]

/-- What a program writes through a buffer that is empty at every fork. -/
theorem prints_of_exec {p : Prog β} {as : List (Choice × List β)} (hempty : EmptyAtForks B p [])
    (h : (system B p).Exec as .exited) : Prints p (text as) := by
  have hall := forall_text_iff (B := B) (p := p) (Q := Prints p)
  refine hall.2 (fun t ht => ?_) as h
  obtain ⟨u, hu, htext⟩ := text_mem_outs_unbuffered hempty ht
  exact ⟨u, hu, htext.symm⟩

/-- Without a buffer everything that can be printed is written in some run. -/
theorem exists_exec_of_prints {p : Prog β} {z : List β} (h : Prints p z) :
    ∃ as, (system unbuffered p).Exec as .exited ∧ text as = z := by
  obtain ⟨t, ht, rfl⟩ := h
  obtain ⟨as, hrun, rfl⟩ := exists_run_of_mem_rest (p := p) (s := .alone p []) ht
  exact ⟨as, ⟨.alone p [], rfl, hrun⟩, (flatten_filterMap_written as).symm⟩

theorem emptyAtForks_print (bs buf : List β) : EmptyAtForks B (.print bs .exit) buf := by
  induction bs generalizing buf with
  | nil => trivial
  | cons b bs ih => exact ih _

/-! ### Lines -/

section Lines

variable {γ : Type u}

/-- The program that prints a whole line for every element. -/
def Prog.lines (f : γ → List β) : Prog γ → Prog β
  | .exit => .exit
  | .putc x k => .print (f x) (k.lines f)
  | .wait k => .wait (k.lines f)
  | .fork child meanwhile k => .fork (child.lines f) (meanwhile.flatMap f) (k.lines f)

theorem insertions_map {α : Type u} (g : γ → α) (x : γ) {f : List γ → List (List γ)}
    {f' : List α → List (List α)} (hf : ∀ ys, f' (ys.map g) = (f ys).map (·.map g)) (ys : List γ) :
    insertions (g x) f' (ys.map g) = (insertions x f ys).map (·.map g) := by
  induction ys with
  | nil =>
      have hnil := hf []
      rw [List.map_nil] at hnil
      simp only [insertions, List.map_nil, hnil, List.map_map]
      rfl
  | cons y ys ih =>
      have hcons := hf (y :: ys)
      rw [List.map_cons] at hcons
      simp only [insertions, List.map_cons, hcons, ih, List.map_append, List.map_map]
      rfl

theorem shuffles_map {α : Type u} (g : γ → α) (xs ys : List γ) :
    shuffles (xs.map g) (ys.map g) = (shuffles xs ys).map (·.map g) := by
  induction xs generalizing ys with
  | nil => rfl
  | cons x xs ih => exact insertions_map g x ih ys

theorem joined_map {α : Type u} (g : γ → α) (left : List γ) (after ts : List (List γ)) :
    joined (left.map g) (after.map (·.map g)) (ts.map (·.map g))
      = (joined left after ts).map (·.map g) := by
  simp only [joined, List.flatMap_map, List.map_flatMap, List.flatMap_assoc, shuffles_map,
    List.map_map]
  refine List.flatMap_congr fun c _ => List.flatMap_congr fun m _ => ?_
  refine List.map_congr_left fun r _ => ?_
  exact (List.map_append ..).symm

theorem puts_text_append (buf xs ys : List β) :
    puts B buf (xs ++ ys) = ((puts B buf xs).1 ++ (puts B (puts B buf xs).2 ys).1,
      (puts B (puts B buf xs).2 ys).2) := by
  induction xs generalizing buf with
  | nil => rfl
  | cons x xs ih =>
      rw [List.cons_append, puts, ih, puts]
      simp only [List.append_assoc]

theorem puts_flatMap {f : γ → List β} (hf : ∀ x, puts B [] (f x) = ([f x], [])) (xs : List γ) :
    puts B [] (xs.flatMap f) = (xs.map f, []) := by
  induction xs with
  | nil => rfl
  | cons x xs ih =>
      rw [List.flatMap_cons, puts_text_append, hf, ih]
      rfl

theorem map_flatMap_singles (f : γ → List β) (xs : List γ) :
    (xs.map ([·])).map (·.flatMap f) = xs.map f := by
  rw [List.map_map]
  exact List.map_congr_left fun x _ => List.append_nil _

/-- **A line is written as a whole**: where every line goes out with its last element, a program can
write the lines in exactly the orders in which it can print them. -/
theorem outs_lines {f : γ → List β} (hf : ∀ x, puts B [] (f x) = ([f x], [])) (p : Prog γ) :
    outs B (p.lines f) [] = (outs unbuffered p []).map (·.map (·.flatMap f)) := by
  have hsingle : ∀ x, [x].flatMap f = f x := fun x => List.append_nil _
  induction p with
  | exit => rfl
  | putc x k ih =>
      rw [Prog.lines, outs_print, hf, ih, outs, put_unbuffered, List.map_map, List.map_map]
      refine List.map_congr_left fun t _ => ?_
      simp only [Function.comp_apply, writes, List.map_append, List.map_cons, List.map_nil, hsingle]
  | wait k ih => exact ih
  | fork child meanwhile k ihchild ihk =>
      rw [Prog.lines, outs, puts_flatMap hf, outs, puts_unbuffered, List.map_append, ihchild, ihk,
        ← map_flatMap_singles f meanwhile, joined_map]
      congr 1
      simp only [List.map_map]
      refine List.map_congr_left fun t _ => ?_
      simp only [Function.comp_apply, List.map_append, List.map_map]

end Lines

end ForkJoin
