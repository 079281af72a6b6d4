/-
**Processes that fork, and exit through their handlers.**

A process prints through a buffer of its own, registers exit handlers and forks.  A child gets a
copy of the buffer and of the handlers, and nobody waits for it: from the fork on, the two take
their steps in any order.  A process that exits runs its handlers, the one registered last first,
writes out its buffer and leaves a status.

Main definitions:

* `ForkExit.Prog` — what a process does;
* `ForkExit.State`, `ForkExit.system` — the processes, and the steps they take;
* `ForkExit.outs` — the writes and the statuses, computed from the program.

Main results:

* `ForkExit.outcomes_eq` — **what a program can write, and with which statuses**, is what `outs`
  computes, no more and no less;
* `ForkExit.length_le`, `ForkExit.exists_run_finished` — a run is bounded and can be continued until
  all processes have exited;
* `ForkExit.chunks_of_held`, `ForkExit.exists_mixed` — when a text is written at once, and what may
  happen to it otherwise.
-/

import AupPrograms.ForkJoin

set_option relaxedAutoImplicit false
set_option autoImplicit false

universe u

namespace ForkExit

open ForkJoin (Interleaving shuffles mem_shuffles interleaving_nil_left writes flatten_writes
  written filterMap_written_cons puts puts_append puts_text_append puts_of_held puts_eq_nil_iff
  head?_of_puts Held)
open Stdio (Buffering pending put_of_full)

variable {β : Type u}

/-! ### Programs -/

/-- What a process does. -/
inductive Prog (β : Type u)
  | exit (status : ℤ)
  | putc (b : β) (k : Prog β)
  /-- Registers a handler that prints `text`; goes on with `failed` if that fails. -/
  | atexit (text : List β) (k failed : Prog β)
  /-- Forks; goes on with `failed` if that fails. -/
  | fork (child parent failed : Prog β)
  deriving DecidableEq

/-- Prints a text and goes on. -/
def Prog.print (text : List β) (k : Prog β) : Prog β := text.foldr .putc k

/-- A process with its descendants. -/
inductive State (β : Type u)
  | exited (status : ℤ)
  /-- A process with its handlers, the one registered last first, and its buffer. -/
  | running (todo : Prog β) (handlers : List (List β)) (buf : List β)
  | both (parent child : State β)
  deriving DecidableEq

/-- A step of one process, which gets what it asks for if `granted`, and what it writes. -/
def act (B : Buffering β) (handlers : List (List β)) (buf : List β) (granted : Bool) :
    Prog β → State β × List β
  | .exit status =>
      match handlers with
      | [] => (.exited status, buf)
      | text :: handlers => (.running (.print text (.exit status)) handlers buf, [])
  | .putc b k => (.running k handlers (B.put buf b).2, (B.put buf b).1)
  | .atexit text k failed =>
      (if granted then .running k (text :: handlers) buf else .running failed handlers buf, [])
  | .fork child parent failed =>
      (if granted then .both (.running parent handlers buf) (.running child handlers buf)
        else .running failed handlers buf, [])

/-- Which process takes the step: the way to it through the forks, where the child is `true`. -/
structure Choice where
  path : List Bool
  granted : Bool
  deriving DecidableEq

/-- One step, and what is written in it. -/
def next (B : Buffering β) : State β → Choice → Option (State β × List β)
  | .running todo handlers buf, ⟨[], granted⟩ => some (act B handlers buf granted todo)
  | .both parent child, ⟨false :: path, granted⟩ =>
      (next B parent ⟨path, granted⟩).map fun r => (.both r.1 child, r.2)
  | .both parent child, ⟨true :: path, granted⟩ =>
      (next B child ⟨path, granted⟩).map fun r => (.both parent r.1, r.2)
  | _, _ => none

/-- **The program**, with all processes it has forked. -/
def system (B : Buffering β) (p : Prog β) : Lts (State β) (Choice × List β) :=
  Lts.ofNext (fun s => s = .running p [] []) (next B)

/-- All processes have exited. -/
def State.Finished : State β → Prop
  | .exited _ => True
  | .running _ _ _ => False
  | .both parent child => parent.Finished ∧ child.Finished

/-- The statuses with which processes have exited, a parent before its child. -/
def State.statuses : State β → List ℤ
  | .exited status => [status]
  | .running _ _ _ => []
  | .both parent child => parent.statuses ++ child.statuses

/-! ### What is written -/

/-- The writes of processes, and their statuses. -/
abbrev Outcome (β : Type u) := List (List β) × List ℤ

/-- The writes of a process that prints a text and then writes out its buffer. -/
def chunks (B : Buffering β) (buf text : List β) : List (List β) :=
  (puts B buf text).1 ++ writes (puts B buf text).2

/-- The outcomes of a parent and its child together. -/
def together (xs ys : List (Outcome β)) : List (Outcome β) :=
  xs.flatMap fun x => ys.flatMap fun y => (shuffles x.1 y.1).map fun m => (m, x.2 ++ y.2)

/-- **The outcomes** of a program that starts with these handlers and this buffer. -/
def outs (B : Buffering β) : Prog β → List (List β) → List β → List (Outcome β)
  | .exit status, handlers, buf => [(chunks B buf handlers.flatten, [status])]
  | .putc b k, handlers, buf =>
      (outs B k handlers (B.put buf b).2).map fun o => (writes (B.put buf b).1 ++ o.1, o.2)
  | .atexit text k failed, handlers, buf =>
      outs B k (text :: handlers) buf ++ outs B failed handlers buf
  | .fork child parent failed, handlers, buf =>
      together (outs B parent handlers buf) (outs B child handlers buf)
        ++ outs B failed handlers buf

/-- The outcomes that are still to come. -/
def rest (B : Buffering β) : State β → List (Outcome β)
  | .exited status => [([], [status])]
  | .running todo handlers buf => outs B todo handlers buf
  | .both parent child => together (rest B parent) (rest B child)

variable {B : Buffering β} {handlers : List (List β)} {buf : List β} {o : Outcome β}

theorem mem_together {xs ys : List (Outcome β)} :
    o ∈ together xs ys ↔
      ∃ x ∈ xs, ∃ y ∈ ys, Interleaving x.1 y.1 o.1 ∧ o.2 = x.2 ++ y.2 := by
  simp only [together, List.mem_flatMap, List.mem_map, mem_shuffles]
  constructor
  · rintro ⟨x, hx, y, hy, m, hm, rfl⟩
    exact ⟨x, hx, y, hy, hm, rfl⟩
  · rintro ⟨x, hx, y, hy, hm, heq⟩
    exact ⟨x, hx, y, hy, o.1, hm, heq ▸ rfl⟩

/-- Printing a text and going on. -/
theorem outs_print (text : List β) (k : Prog β) (handlers : List (List β)) (buf : List β) :
    outs B (.print text k) handlers buf
      = (outs B k handlers (puts B buf text).2).map fun o => ((puts B buf text).1 ++ o.1, o.2) := by
  induction text generalizing buf with
  | nil => simp [Prog.print, puts]
  | cons b bs ih =>
      have hcons : Prog.print (b :: bs) k = .putc b (.print bs k) := rfl
      rw [hcons, outs, ih, puts, List.map_map]
      refine List.map_congr_left fun t _ => ?_
      simp only [Function.comp_apply, List.append_assoc]

/-- Printing a text and exiting. -/
theorem outs_print_exit (text : List β) (status : ℤ) (handlers : List (List β)) (buf : List β) :
    outs B (.print text (.exit status)) handlers buf
      = [(chunks B buf (text ++ handlers.flatten), [status])] := by
  rw [outs_print, outs, List.map_singleton, chunks, chunks, puts_text_append, List.append_assoc]

/-! ### A step and what is still to come -/

/-- What a process may do after a step, it could do with the step before it. -/
theorem mem_outs_of_act {todo : Prog β} {granted : Bool}
    (ho : o ∈ rest B (act B handlers buf granted todo).1) :
    (writes (act B handlers buf granted todo).2 ++ o.1, o.2) ∈ outs B todo handlers buf := by
  cases todo with
  | exit status =>
      cases handlers with
      | nil =>
          obtain rfl := List.mem_singleton.1 ho
          exact List.mem_singleton.2 (by simp [act, chunks, puts])
      | cons text handlers =>
          rw [act, rest, outs_print_exit] at ho
          exact ho
  | putc b k => exact List.mem_map_of_mem ho
  | atexit text k failed =>
      cases granted with
      | true => exact List.mem_append_left _ ho
      | false => exact List.mem_append_right _ ho
  | fork child parent failed =>
      cases granted with
      | true => exact List.mem_append_left _ ho
      | false => exact List.mem_append_right _ ho

/-- **What a step writes, and what may come after it, could come before it.** -/
theorem mem_rest_of_next {s s' : State β} {c : Choice} {w : List β}
    (h : next B s c = some (s', w)) (ho : o ∈ rest B s') :
    (writes w ++ o.1, o.2) ∈ rest B s := by
  obtain ⟨path, granted⟩ := c
  induction s generalizing path s' o with
  | exited status => cases path <;> cases h
  | running todo handlers buf =>
      cases path with
      | nil =>
          obtain ⟨rfl, rfl⟩ := Prod.mk.inj (Option.some_inj.1 h)
          exact mem_outs_of_act ho
      | cons d path => cases h
  | both parent child ihparent ihchild =>
      cases path with
      | nil => cases h
      | cons d path =>
          cases d with
          | false =>
              obtain ⟨⟨parent', w'⟩, hnext, heq⟩ := Option.map_eq_some_iff.1 h
              obtain ⟨rfl, rfl⟩ := Prod.mk.inj heq
              obtain ⟨x, hx, y, hy, hm, hstatus⟩ := mem_together.1 ho
              exact mem_together.2 ⟨_, ihparent hx path hnext, y, hy, hm.append_left _, hstatus⟩
          | true =>
              obtain ⟨⟨child', w'⟩, hnext, heq⟩ := Option.map_eq_some_iff.1 h
              obtain ⟨rfl, rfl⟩ := Prod.mk.inj heq
              obtain ⟨x, hx, y, hy, hm, hstatus⟩ := mem_together.1 ho
              exact mem_together.2 ⟨x, hx, _, ihchild hy path hnext, hm.append_right _, hstatus⟩

/-- Some step makes the first of the writes of `o` or none, and the others may come after it. -/
def Begins (B : Buffering β) (s : State β) (o : Outcome β) : Prop :=
  ∃ c s' w o', next B s c = some (s', w) ∧ o' ∈ rest B s' ∧ o = (writes w ++ o'.1, o'.2)

/-- A process can begin what it may do. -/
theorem begins_of_mem_outs {todo : Prog β} (ho : o ∈ outs B todo handlers buf) :
    Begins B (.running todo handlers buf) o := by
  cases todo with
  | exit status =>
      obtain rfl := List.mem_singleton.1 ho
      cases handlers with
      | nil =>
          exact ⟨⟨[], true⟩, .exited status, buf, ([], [status]), rfl, List.mem_singleton_self _,
            by simp [chunks, puts]⟩
      | cons text handlers =>
          refine ⟨⟨[], true⟩, _, _, (chunks B buf (text :: handlers).flatten, [status]), rfl, ?_,
            rfl⟩
          rw [rest, outs_print_exit]
          exact List.mem_singleton_self _
  | putc b k =>
      obtain ⟨o', ho', rfl⟩ := List.mem_map.1 ho
      exact ⟨⟨[], true⟩, _, _, o', rfl, ho', rfl⟩
  | atexit text k failed =>
      rcases List.mem_append.1 ho with ho | ho
      · exact ⟨⟨[], true⟩, _, _, o, rfl, ho, rfl⟩
      · exact ⟨⟨[], false⟩, _, _, o, rfl, ho, rfl⟩
  | fork child parent failed =>
      rcases List.mem_append.1 ho with ho | ho
      · exact ⟨⟨[], true⟩, _, _, o, rfl, ho, rfl⟩
      · exact ⟨⟨[], false⟩, _, _, o, rfl, ho, rfl⟩

section

variable {parent child s' : State β} {xs ys m : List (List β)} {ss ts : List ℤ} {c : Choice}
  {w : List β}

/-- A step of the parent, whose write is at the front of the interleaving. -/
theorem Begins.of_parent (hnext : next B parent c = some (s', w)) (hx : (xs, ss) ∈ rest B s')
    (hy : (ys, ts) ∈ rest B child) (hm : Interleaving xs ys m) :
    Begins B (.both parent child) (writes w ++ m, ss ++ ts) := by
  obtain ⟨path, granted⟩ := c
  refine ⟨⟨false :: path, granted⟩, .both s' child, w, (m, ss ++ ts), ?_, ?_, rfl⟩
  · simp only [next, hnext, Option.map_some]
  · exact mem_together.2 ⟨_, hx, _, hy, hm, rfl⟩

/-- A step of the child, whose write is at the front of the interleaving. -/
theorem Begins.of_child (hnext : next B child c = some (s', w)) (hx : (xs, ss) ∈ rest B parent)
    (hy : (ys, ts) ∈ rest B s') (hm : Interleaving xs ys m) :
    Begins B (.both parent child) (writes w ++ m, ss ++ ts) := by
  obtain ⟨path, granted⟩ := c
  refine ⟨⟨true :: path, granted⟩, .both parent s', w, (m, ss ++ ts), ?_, ?_, rfl⟩
  · simp only [next, hnext, Option.map_some]
  · exact mem_together.2 ⟨_, hx, _, hy, hm, rfl⟩

end

/-- **What may come can be begun** as long as a process is left. -/
theorem begins_of_mem_rest {s : State β} (ho : o ∈ rest B s) :
    (s.Finished ∧ o = ([], s.statuses)) ∨ Begins B s o := by
  induction s generalizing o with
  | exited status => exact Or.inl ⟨trivial, List.mem_singleton.1 ho⟩
  | running todo handlers buf => exact Or.inr (begins_of_mem_outs ho)
  | both parent child ihparent ihchild =>
      obtain ⟨m, statuses⟩ := o
      obtain ⟨⟨xs, ss⟩, hx, ⟨ys, ts⟩, hy, hm, heq⟩ := mem_together.1 ho
      obtain rfl : statuses = ss ++ ts := heq
      change Interleaving xs ys m at hm
      rcases ihparent hx with ⟨hfinished, heq⟩ | ⟨c, s', w, ⟨xs', ss'⟩, hnext, hx', heq⟩
      · -- only the child is left
        obtain ⟨rfl, rfl⟩ := Prod.mk.inj heq
        obtain rfl := interleaving_nil_left.1 hm
        rcases ihchild hy with ⟨hfinished', heq⟩ | ⟨c, s', w, ⟨ys', ts'⟩, hnext, hy', heq⟩
        · obtain ⟨rfl, rfl⟩ := Prod.mk.inj heq
          exact Or.inl ⟨⟨hfinished, hfinished'⟩, rfl⟩
        · obtain ⟨rfl, rfl⟩ := Prod.mk.inj heq
          exact Or.inr (.of_child hnext hx hy' (interleaving_nil_left.2 rfl))
      · right
        obtain ⟨rfl, rfl⟩ := Prod.mk.inj heq
        cases w with
        | nil => exact .of_parent hnext hx' hy hm
        | cons b bs =>
            cases hm with
            | left hm => exact .of_parent hnext hx' hy hm
            | @right z _ zs ms hm =>
                -- the child writes first
                rcases ihchild hy with ⟨-, hnil⟩ | ⟨c', s'', w', ⟨ys', ts'⟩, hnext', hy', heq⟩
                · cases hnil
                · obtain ⟨heq, rfl⟩ := Prod.mk.inj heq
                  cases w' with
                  | nil =>
                      obtain rfl : z :: zs = ys' := heq
                      exact .of_child hnext' hx hy' hm.right
                  | cons d ds =>
                      obtain ⟨rfl, rfl⟩ := List.cons.inj heq
                      exact .of_child hnext' hx hy' hm

/-! ### Every run ends -/

/-- The number of steps that a program can take. -/
def Prog.size : Prog β → List (List β) → ℕ
  | .exit _, handlers => handlers.flatten.length + handlers.length + 1
  | .putc _ k, handlers => k.size handlers + 1
  | .atexit text k failed, handlers =>
      max (k.size (text :: handlers)) (failed.size handlers) + 1
  | .fork child parent failed, handlers =>
      max (child.size handlers + parent.size handlers) (failed.size handlers) + 1

/-- The number of steps that are left. -/
def State.size : State β → ℕ
  | .exited _ => 0
  | .running todo handlers _ => todo.size handlers
  | .both parent child => parent.size + child.size

theorem size_print (text : List β) (k : Prog β) (handlers : List (List β)) :
    (Prog.print text k).size handlers = text.length + k.size handlers := by
  induction text with
  | nil => exact (Nat.zero_add _).symm
  | cons b bs ih =>
      have hcons : (Prog.print (b :: bs) k).size handlers = (Prog.print bs k).size handlers + 1 :=
        rfl
      rw [hcons, ih, List.length_cons]
      omega

theorem act_size (todo : Prog β) (granted : Bool) :
    (act B handlers buf granted todo).1.size + 1 ≤ todo.size handlers := by
  cases todo with
  | exit status =>
      cases handlers with
      | nil => exact Nat.le_refl _
      | cons text handlers =>
          simp only [act, State.size, size_print, Prog.size, List.flatten_cons, List.length_append,
            List.length_cons]
          omega
  | putc b k => exact Nat.le_refl _
  | atexit text k failed =>
      cases granted <;> simp only [act, Bool.false_eq_true, if_false, if_true, State.size,
        Prog.size] <;> omega
  | fork child parent failed =>
      cases granted <;> simp only [act, Bool.false_eq_true, if_false, if_true, State.size,
        Prog.size] <;> omega

theorem next_size {s s' : State β} {c : Choice} {w : List β} (h : next B s c = some (s', w)) :
    s'.size + 1 ≤ s.size := by
  obtain ⟨path, granted⟩ := c
  induction s generalizing path s' with
  | exited status => cases path <;> cases h
  | running todo handlers buf =>
      cases path with
      | nil =>
          obtain ⟨rfl, rfl⟩ := Prod.mk.inj (Option.some_inj.1 h)
          exact act_size todo granted
      | cons d path => cases h
  | both parent child ihparent ihchild =>
      cases path with
      | nil => cases h
      | cons d path =>
          cases d with
          | false =>
              obtain ⟨⟨parent', w'⟩, hnext, heq⟩ := Option.map_eq_some_iff.1 h
              obtain ⟨rfl, rfl⟩ := Prod.mk.inj heq
              have hparent := ihparent path hnext
              simp only [State.size]
              omega
          | true =>
              obtain ⟨⟨child', w'⟩, hnext, heq⟩ := Option.map_eq_some_iff.1 h
              obtain ⟨rfl, rfl⟩ := Prod.mk.inj heq
              have hchild := ihchild path hnext
              simp only [State.size]
              omega

theorem pays (B : Buffering β) (p : Prog β) : (system B p).Pays State.size fun _ => 0 := by
  intro as s a s' _ hs
  exact next_size hs

/-- **A run is bounded.** -/
theorem length_le {p : Prog β} {as : List (Choice × List β)} {s : State β}
    (h : (system B p).Exec as s) : as.length + s.size ≤ p.size [] := by
  have hle := (pays B p).length_le (n := p.size []) (fun s hs => by rw [hs]; rfl) h
  simpa using hle

/-- There is always something that may come. -/
theorem exists_mem_outs (B : Buffering β) (p : Prog β) (handlers : List (List β)) (buf : List β) :
    ∃ o, o ∈ outs B p handlers buf := by
  induction p generalizing handlers buf with
  | exit status => exact ⟨_, List.mem_singleton_self _⟩
  | putc b k ih =>
      obtain ⟨o, ho⟩ := ih handlers (B.put buf b).2
      exact ⟨_, List.mem_map_of_mem ho⟩
  | atexit text k failed _ ihfailed =>
      obtain ⟨o, ho⟩ := ihfailed handlers buf
      exact ⟨o, List.mem_append_right _ ho⟩
  | fork child parent failed _ _ ihfailed =>
      obtain ⟨o, ho⟩ := ihfailed handlers buf
      exact ⟨o, List.mem_append_right _ ho⟩

theorem exists_mem_rest (B : Buffering β) (s : State β) : ∃ o, o ∈ rest B s := by
  induction s with
  | exited status => exact ⟨_, List.mem_singleton_self _⟩
  | running todo handlers buf => exact exists_mem_outs B todo handlers buf
  | both parent child ihparent ihchild =>
      obtain ⟨x, hx⟩ := ihparent
      obtain ⟨y, hy⟩ := ihchild
      exact ⟨(x.1 ++ y.1, x.2 ++ y.2), mem_together.2 ⟨x, hx, y, hy,
        by simpa using (interleaving_nil_left.2 rfl).append_left x.1, rfl⟩⟩

/-! ### What a program can write -/

theorem exists_run_of_mem_rest {p : Prog β} {s : State β} (ho : o ∈ rest B s) :
    ∃ as s', (system B p).Run s as s' ∧ s'.Finished ∧
      (as.filterMap written, s'.statuses) = o := by
  induction hn : s.size using Nat.strong_induction_on generalizing s o with
  | _ n ih =>
      rcases begins_of_mem_rest ho with ⟨hfinished, rfl⟩ | ⟨c, s', w, o', hnext, ho', rfl⟩
      · exact ⟨[], s, Lts.Run.nil _, hfinished, rfl⟩
      · have hsize := next_size hnext
        obtain ⟨as, s'', hrun, hfinished, rfl⟩ := ih s'.size (by omega) ho' rfl
        refine ⟨(c, w) :: as, s'', hrun.cons hnext, hfinished, ?_⟩
        rw [filterMap_written_cons]

/-- **Every run can be continued** until all processes have exited. -/
theorem exists_run_finished {p : Prog β} (s : State β) :
    ∃ bs s', (system B p).Run s bs s' ∧ s'.Finished := by
  obtain ⟨o, ho⟩ := exists_mem_rest B s
  obtain ⟨bs, s', hrun, hfinished, -⟩ := exists_run_of_mem_rest (p := p) ho
  exact ⟨bs, s', hrun, hfinished⟩

/-- What has been written, and what may come, is what the program can write. -/
theorem append_mem_outs {p : Prog β} {as : List (Choice × List β)} {s : State β}
    (h : (system B p).Exec as s) :
    ∀ o ∈ rest B s, (as.filterMap written ++ o.1, o.2) ∈ outs B p [] [] := by
  refine Lts.Exec.invariant
    (I := fun as s => ∀ o ∈ rest B s, (as.filterMap written ++ o.1, o.2) ∈ outs B p [] []) ?_ ?_ h
  · rintro s rfl o ho
    exact ho
  · intro as s a s' _ ih hs o ho
    have hbefore := ih _ (mem_rest_of_next hs ho)
    rwa [List.filterMap_append, filterMap_written_cons, List.filterMap_nil, List.append_nil,
      List.append_assoc]

theorem mem_rest_of_finished {s : State β} (h : s.Finished) : ([], s.statuses) ∈ rest B s := by
  induction s with
  | exited status => exact List.mem_singleton_self _
  | running todo handlers buf => exact h.elim
  | both parent child ihparent ihchild =>
      exact mem_together.2 ⟨_, ihparent h.1, _, ihchild h.2, .nil, rfl⟩

/-- The writes and the statuses of the finished runs. -/
def outcomes (B : Buffering β) (p : Prog β) : Set (Outcome β) :=
  {o | ∃ as s, (system B p).Exec as s ∧ s.Finished ∧ (as.filterMap written, s.statuses) = o}

/-- **What a program can write, and with which statuses its processes exit**, is what `outs`
computes. -/
theorem outcomes_eq (B : Buffering β) (p : Prog β) : outcomes B p = {o | o ∈ outs B p [] []} := by
  ext o
  constructor
  · rintro ⟨as, s, hr, hfinished, rfl⟩
    simpa using append_mem_outs hr _ (mem_rest_of_finished hfinished)
  · intro ho
    obtain ⟨as, s, hrun, hfinished, rfl⟩ :=
      exists_run_of_mem_rest (p := p) (s := .running p [] []) ho
    exact ⟨as, s, ⟨_, rfl, hrun⟩, hfinished, rfl⟩

/-! ### What one process writes -/

theorem flatten_chunks (B : Buffering β) (buf text : List β) :
    (chunks B buf text).flatten = buf ++ text := by
  rw [chunks, List.flatten_append, flatten_writes, puts_append]

/-- What is in the buffer after printing a text. -/
theorem puts_eq_pending (B : Buffering β) (text : List β) :
    (puts B [] text).2 = pending B text := by
  have hgen : ∀ buf, (puts B buf text).2 = text.foldl (fun buf b => (B.put buf b).2) buf := by
    induction text with
    | nil => exact fun _ => rfl
    | cons b bs ih => exact fun buf => ih (B.put buf b).2
  exact hgen []

/-- A text that stays in the buffer is written at once. -/
theorem chunks_of_held {text : List β} (hne : text ≠ []) (h : Held B text) :
    chunks B [] text = [text] := by
  obtain ⟨b, bs, rfl⟩ := List.exists_cons_of_ne_nil hne
  rw [chunks, puts_of_held [] h]
  rfl

/-- Any other text is written in parts, if its last element does not flush the buffer alone. -/
theorem chunks_of_not_held {text : List β} {b : β} (h : ¬ Held B (text ++ [b]))
    (hlast : (∀ c ∈ text, B.flushes c = false) → B.flushes b = false) :
    ∃ xs ys, chunks B [] (text ++ [b]) = xs ++ ys ∧ xs.flatten ≠ [] ∧ ys.flatten ≠ [] := by
  have hsplit : chunks B [] (text ++ [b])
      = (puts B [] text).1 ++ chunks B (puts B [] text).2 [b] := by
    rw [chunks, chunks, puts_text_append, List.append_assoc]
  by_cases htext : Held B text
  · -- the buffer is full when the last element comes
    have hflush : B.flushes b = false := hlast htext.1
    have hfull : ¬ text.length < B.capacity := by
      intro hroom
      refine h ⟨fun c hc => ?_, ?_⟩
      · rcases List.mem_append.1 hc with hc | hc
        · exact htext.1 c hc
        · rw [List.mem_singleton.1 hc]
          exact hflush
      · rw [List.length_append, List.length_singleton]
        omega
    have hput : B.put text b = (text, [b]) := put_of_full hflush hfull
    refine ⟨writes text, [[b]], ?_, ?_, List.cons_ne_nil b []⟩
    · rw [hsplit, puts_of_held [] htext, List.nil_append, List.nil_append, chunks, puts, puts, hput]
      rw [List.append_nil]
      rfl
    · rw [flatten_writes]
      rintro rfl
      exact hfull B.capacity_pos
  · refine ⟨_, _, hsplit, fun hnil => ?_, ?_⟩
    · have hwritten : (puts B [] text).1 ≠ [] := fun hnil => htext (puts_eq_nil_iff.1 hnil)
      have hhead := head?_of_puts hwritten
      rw [hnil, List.head?_nil, eq_comm, List.head?_eq_none_iff] at hhead
      rw [hhead] at hwritten
      exact hwritten rfl
    · rw [flatten_chunks]
      exact List.append_ne_nil_of_right_ne_nil _ (List.cons_ne_nil b [])

/-- **Texts that are mixed**: what is written in parts can have another text between them. -/
theorem exists_mixed (other : List β) (c : β) {text : List β} {b : β}
    (h : ¬ Held B (text ++ [b])) (hlast : (∀ c ∈ text, B.flushes c = false) → B.flushes b = false)
    (hhead : other.head? = some c) (hc : c ∉ text ++ [b]) :
    ∃ m, Interleaving (chunks B [] (text ++ [b])) (chunks B [] other) m ∧
      m.flatten ≠ text ++ [b] ++ other ∧ m.flatten ≠ other ++ (text ++ [b]) := by
  obtain ⟨xs, ys, heq, hxs, hys⟩ := chunks_of_not_held h hlast
  have hsum : text ++ [b] = xs.flatten ++ ys.flatten := by
    rw [← List.flatten_append, ← heq, flatten_chunks, List.nil_append]
  obtain ⟨others, rfl⟩ : ∃ others, other = c :: others := by
    cases other with
    | nil => cases hhead
    | cons d others => exact ⟨others, by rw [← Option.some_inj.1 hhead]⟩
  obtain ⟨x, xs', hxs'⟩ := List.exists_cons_of_ne_nil hxs
  obtain ⟨y, ys', hys'⟩ := List.exists_cons_of_ne_nil hys
  rw [hsum, hxs', hys'] at hc
  refine ⟨xs ++ (chunks B [] (c :: others) ++ ys), ?_, ?_, ?_⟩
  · have hlast : Interleaving ys [] ys := (interleaving_nil_left.2 rfl).symm
    rw [heq]
    simpa using (hlast.append_right (chunks B [] (c :: others))).append_left xs
  · -- the other text would begin with the second part
    rw [hsum, List.flatten_append, List.flatten_append, flatten_chunks, hys',
      List.append_assoc xs.flatten]
    intro hflat
    obtain ⟨rfl, -⟩ := List.cons.inj (List.append_cancel_left hflat)
    simp at hc
  · -- the other text would begin with the first part
    rw [List.flatten_append, hxs']
    intro hflat
    obtain ⟨rfl, -⟩ := List.cons.inj hflat
    simp at hc

end ForkExit
