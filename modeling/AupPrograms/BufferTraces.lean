/-
**The two bounded buffers have the same behaviour.**

With one producer and one consumer, the complete sessions of the spinning buffer
(`AupPrograms/SpinBuffer.lean`) and of the buffer with condition variables
(`AupPrograms/CondBuffer.lean`) are both exactly the sessions of the bounded stack
(`AupPrograms/BoundedBuffer.lean`).

For each program there are two directions.  Every run follows the stack step by step; for the
spinning buffer this rests on what a thread still knows when it finally holds the mutex
(`SpinBuffer.Known`): the other thread can only have moved the counter away from the bound it
tested.  Conversely every step of the stack is carried out by one undisturbed iteration of a
thread, from a state in which both threads are between two iterations.

Main results:

* `BoundedBuffer.realises_of_iterates` — iterations that nothing disturbs realise the stack;
* `CondBuffer.simulates`, `CondBuffer.realises` — the two directions for condition variables;
* `SpinBuffer.simulates`, `SpinBuffer.realises` — the two directions for the spinning test;
* `BoundedBuffer.traces_eq_legal` — the two directions together give the legal sessions;
* `BoundedBuffer.spin_traces_eq_cond_traces` — **the two programs have the same sessions**, and the
  spinning one never leaves the array.
-/

import AupPrograms.CondBuffer
import AupPrograms.SpinBuffer

set_option relaxedAutoImplicit false
set_option autoImplicit false

open Pthread BoundedBuffer

/-! ### One producer and one consumer -/

namespace BoundedBuffer

/-- The token of the `i`-th put of the only producer. -/
def tok (i : ℕ) : Token Unit := ((), i)

/-- The states of one producer and one consumer with locations `L`. -/
abbrev Pair (L C : Type) := State (Unit ⊕ Unit) L (Mem (Token Unit)) Unit C

variable {L C : Type}

/-- Both threads are between two iterations, the `i`-th of which starts at `head i`. -/
structure Rests (head : ℕ → L) {MAX : ℕ} (t : Stock MAX (Token Unit)) (s : Pair L C) : Prop where
  holds : Holds s.mem t.items
  owner : s.owner () = none
  producer : s.status (.inl ()) = .run (head t.puts)
  consumer : s.status (.inr ()) = .run (head t.gets)

theorem Rests.awake {head : ℕ → L} {MAX : ℕ} {t : Stock MAX (Token Unit)} {s : Pair L C}
    (h : Rests head t s) (u : Unit ⊕ Unit) : ¬ (s.status u).IsAsleep := by
  rcases u with ⟨⟩ | ⟨⟩
  · rw [h.producer]; exact id
  · rw [h.consumer]; exact id

/-- Thread `u` can make its `i`-th iteration on its own, with event `e`, leaving the memory `g`. -/
def Iterates (T : Lts (Pair L C) (Action (Unit ⊕ Unit) (Event (Token Unit)))) (head : ℕ → L)
    (s : Pair L C) (u : Unit ⊕ Unit) (i : ℕ) (e : Event (Token Unit)) (g : Mem (Token Unit)) :
    Prop :=
  ∃ as s', T.Run s as s' ∧ as.filterMap Action.event = [e] ∧
    s'.status = Function.update s.status u (.run (head (i + 1))) ∧ s'.owner () = none ∧ s'.mem = g

variable {T : Lts (Pair L C) (Action (Unit ⊕ Unit) (Event (Token Unit)))} {head : ℕ → L}
  {MAX N : ℕ}

/-- **Every step of the stack is one iteration of a thread**, if a producer that finds room and a
consumer that finds a token can make one. -/
theorem realises_of_iterates (hstart : ∃ s, T.init s ∧ Rests head (Stock.empty MAX _) s)
    (hput : ∀ (t : Stock MAX (Token Unit)) s, Rests head t s → t.puts < N → s.mem.count < MAX →
      Iterates T head s (.inl ()) t.puts (.put s.mem.count (tok t.puts))
        (s.mem.write (tok t.puts)).incr)
    (hget : ∀ (t : Stock MAX (Token Unit)) s, Rests head t s → t.gets < N → 0 < s.mem.count →
      Iterates T head s (.inr ()) t.gets (.get (s.mem.count - 1) (s.mem.buf (s.mem.count - 1)))
        s.mem.decr) :
    T.Realises Action.event (stockSystem MAX N tok) (Rests head) where
  init t ht := by
    obtain rfl : t = Stock.empty MAX _ := ht
    exact hstart
  step t e t₁ s hrest hstep := by
    rcases StockStep.mem hstep hrest.holds with
      ⟨hN, hroom, rfl, hh, hp, hg⟩ | ⟨hN, hsome, rfl, hh, hp, hg⟩
    · obtain ⟨as, s₁, hrun, hev, hst, ho, hmem⟩ := hput t s hrest hN hroom
      refine ⟨as, s₁, hrun, hev, ⟨by rw [hmem]; exact hh, ho, ?_, ?_⟩⟩
      · rw [hst, hp]; simp
      · rw [hst, hg]; simpa using hrest.consumer
    · obtain ⟨as, s₁, hrun, hev, hst, ho, hmem⟩ := hget t s hrest hN hsome
      refine ⟨as, s₁, hrun, hev, ⟨by rw [hmem]; exact hh, ho, ?_, ?_⟩⟩
      · rw [hst, hp]; simpa using hrest.producer
      · rw [hst, hg]; simp

/-- When all accesses are made, both threads leave. -/
theorem Rests.leave {exit : ℕ → L} (hleave : ∀ s u, s.status u = .run (head N) →
      ∃ a, T.step s a (s.goto u (.run (exit N))) ∧ a.event = none)
    {t : Stock MAX (Token Unit)} {s : Pair L C} (h : Rests head t s) (hc : t.Complete N) :
    ∃ as s₁, T.Run s as s₁ ∧ as.filterMap Action.event = [] ∧
      ∀ u, ∃ i, s₁.status u = .run (exit i) := by
  have hp : s.status (.inl ()) = .run (head N) := by rw [h.producer, hc.1]
  have hg : s.status (.inr ()) = .run (head N) := by rw [h.consumer, hc.2]
  obtain ⟨a₁, h₁, e₁⟩ := hleave s (.inl ()) hp
  obtain ⟨a₂, h₂, e₂⟩ := hleave (s.goto (.inl ()) (.run (exit N))) (.inr ()) (by simpa using hg)
  refine ⟨[a₁, a₂], _, .cons h₁ (.single h₂), by simp [e₁, e₂], ?_⟩
  rintro (⟨⟩ | ⟨⟩) <;> exact ⟨N, by simp⟩

/-- **The sessions are the legal ones**, if every run follows the stack, every step of the stack is
one iteration, and a thread leaves when it has made its accesses. -/
theorem traces_eq_legal {R : Pair L C → Stock MAX (Token Unit) → Prop} {exit : ℕ → L}
    (hsim : T.Simulates Action.event (stockSystem MAX N tok) R)
    (hreal : T.Realises Action.event (stockSystem MAX N tok) (Rests head))
    (hleave : ∀ s u, s.status u = .run (head N) →
      ∃ a, T.step s a (s.goto u (.run (exit N))) ∧ a.event = none)
    (hdone : ∀ as s t, T.Exec as s → R s t → (∀ u, ∃ i, s.status u = .run (exit i)) →
      t.Complete N) :
    T.traces Action.event (fun s => ∀ u, ∃ i, s.status u = .run (exit i))
      = {es | Legal MAX N tok es} := by
  rw [← traces_stockSystem]
  exact Set.Subset.antisymm (hsim.traces_subset hdone)
    (hreal.subset_traces fun t s hrest hc => hrest.leave hleave hc)

end BoundedBuffer

/-! ### The buffer with condition variables -/

namespace CondBuffer

/-- Both threads have exited. -/
def Complete (s : St Unit Unit) : Prop := ∀ t, ∃ i, s.status t = .run ⟨.exit, i⟩

/-- The state and the stack agree on the contents and on the accesses made. -/
structure Follows {MAX : ℕ} (s : St Unit Unit) (t : Stock MAX (Token Unit)) : Prop where
  holds : Holds s.mem t.items
  puts : t.puts = (s.status (.inl ())).loc.done
  gets : t.gets = (s.status (.inr ())).loc.done

/-- Every access is a step of the stack. -/
theorem follows_access {MAX N : ℕ} {as : List (Action (Unit ⊕ Unit) (Event (Token Unit)))}
    {s : St Unit Unit} (hr : (system Unit Unit MAX N).Exec as s) {t : Stock MAX (Token Unit)}
    (hf : Follows s t) {u : Unit ⊕ Unit} {i : ℕ} (hs : s.status u = .run ⟨.access, i⟩) :
    ∃ t₁, StockStep N tok t ((side MAX u).event i s.mem) t₁ ∧
      Follows ((s.store ((side MAX u).access i s.mem)).goto u (.run ⟨.signal, i⟩)) t₁ := by
  have hi : i < N := by have := shape hr u; rwa [hs] at this
  have htest : Tested MAX u s.mem (.run ⟨.access, i⟩) := hs ▸ (inv_of_exec hr).tested u
  have h0 := (inv_of_exec hr).count_nonneg
  have h1 := (inv_of_exec hr).count_le
  cases u with
  | inl u =>
      have hne : s.mem.count ≠ MAX := by simpa [Tested, side, producerSide] using htest
      have hp : t.puts = i := by rw [hf.puts, hs]; rfl
      have htok : tok t.puts = (u, i) := by rw [hp]; rfl
      obtain ⟨t₁, hstep, hh, hp₁, hg₁⟩ :=
        hf.holds.stock_put tok (by omega) (by omega : t.puts < N)
      rw [htok] at hstep hh
      exact ⟨t₁, hstep, hh, by simp [hp₁, hp, Loc.done], by simp [hg₁, hf.gets]⟩
  | inr u =>
      have hne : s.mem.count ≠ 0 := by simpa [Tested, side, consumerSide] using htest
      have hg : t.gets = i := by rw [hf.gets, hs]; rfl
      obtain ⟨t₁, hstep, hh, hp₁, hg₁⟩ :=
        hf.holds.stock_get tok (by omega) (by omega : t.gets < N)
      exact ⟨t₁, hstep, hh, by simp [hp₁, hf.puts], by simp [hg₁, hg, Loc.done]⟩

/-- Every run follows the stack. -/
theorem simulates (MAX N : ℕ) :
    (system Unit Unit MAX N).Simulates Action.event (stockSystem MAX N tok) Follows where
  init s hs := by
    obtain rfl : s = start Unit Unit := hs
    exact ⟨Stock.empty MAX _, rfl, ⟨rfl, rfl⟩, rfl, rfl⟩
  silent as s a s₁ t _ hf hs ha := by
    obtain ⟨hmem, hdone⟩ := (move_of_step hs).silent ha
    exact ⟨by rw [hmem]; exact hf.holds, by rw [hdone]; exact hf.puts,
      by rw [hdone]; exact hf.gets⟩
  visible as s a e s₁ t hr hf hs ha := by
    obtain ⟨u, i, hu, rfl, rfl⟩ := (move_of_step hs).visible ha
    exact follows_access hr hf hu

/-- The head of a worker's loop. -/
def headAt (i : ℕ) : Loc := ⟨.head, i⟩

/-- Every step of the stack is one iteration of a thread. -/
theorem realises (MAX N : ℕ) :
    (system Unit Unit MAX N).Realises Action.event (stockSystem MAX N tok) (Rests headAt) := by
  refine realises_of_iterates ⟨start Unit Unit, rfl, ⟨rfl, rfl⟩, rfl, rfl, rfl⟩ ?_ ?_
  · intro t s hrest hN hroom
    exact run_iteration MAX hrest.producer hN hrest.owner
      (by simp [side, producerSide]; omega) hrest.awake
  · intro t s hrest hN hsome
    exact run_iteration MAX hrest.consumer hN hrest.owner
      (by simp [side, consumerSide]; omega) hrest.awake

/-- A thread that has made its accesses leaves. -/
theorem step_leave {MAX N : ℕ} (s : St Unit Unit) (u : Unit ⊕ Unit)
    (hu : s.status u = .run (headAt N)) :
    ∃ a, (system Unit Unit MAX N).step s a (s.goto u (.run ⟨.exit, N⟩)) ∧ a.event = none :=
  step_of_move (Move.leave hu (lt_irrefl N))

/-- **The sessions of the buffer with condition variables are the legal ones.** -/
theorem traces_eq (MAX N : ℕ) :
    (system Unit Unit MAX N).traces Action.event Complete = {es | Legal MAX N tok es} := by
  refine traces_eq_legal (simulates MAX N) (realises MAX N) step_leave ?_
  intro as s t hr hf hc
  have hdone : ∀ u, (s.status u).loc.done = N := fun u => by
    obtain ⟨i, hi⟩ := hc u
    have hsh := shape hr u
    rw [hi] at hsh ⊢
    exact hsh
  exact ⟨hf.puts.trans (hdone _), hf.gets.trans (hdone _)⟩

end CondBuffer

/-! ### The buffer with the spinning test -/

namespace SpinBuffer

/-- Both threads have exited. -/
def Complete (s : St Unit Unit) : Prop := ∀ t, ∃ i, s.status t = .run ⟨.exit, i⟩

/-- The accesses a thread at `l` has made. -/
def Loc.done (l : Loc) : ℕ :=
  match l.pc with
  | .adjust | .unlock => l.i + 1
  | _ => l.i

/-- **What a thread at a program point still knows** about the number `n` of tokens, although it
does not test it again: the other thread can only have moved it away from the bound. -/
def Known (MAX : ℕ) (t : Unit ⊕ Unit) (pc : Pc) (n : ℕ) : Prop :=
  match t, pc with
  | .inl _, .lock | .inl _, .slot | .inr _, .adjust => n < MAX
  | .inr _, .lock | .inr _, .slot | .inl _, .adjust => 0 < n
  | _, _ => True

/-- The state and the stack agree; while a thread has accessed its slot and not yet updated the
counter, the array holds the stack only after that update. -/
structure Follows {MAX : ℕ} (s : St Unit Unit) (t : Stock MAX (Token Unit)) : Prop where
  idle : (∀ u i, s.status u ≠ .run ⟨.adjust, i⟩) → Holds s.mem t.items
  adjusting : ∀ u i, s.status u = .run ⟨.adjust, i⟩ → Holds ((side MAX u).adjust s.mem) t.items
  known : ∀ u l, s.status u = .run l → Known MAX u l.pc t.items.length
  puts : t.puts = (s.status (.inl ())).loc.done
  gets : t.gets = (s.status (.inr ())).loc.done

/-- A thread moves without touching the memory. -/
theorem Follows.goto {MAX : ℕ} {s : St Unit Unit} {t : Stock MAX (Token Unit)} (h : Follows s t)
    {u : Unit ⊕ Unit} {l l' : Loc} (hs : s.status u = .run l) (hl : l.pc ≠ .adjust)
    (hl' : l'.pc ≠ .adjust) (hdone : l'.done = l.done) (hk : Known MAX u l'.pc t.items.length) :
    Follows (s.goto u (.run l')) t := by
  have hother : ∀ v, v ≠ u → (s.goto u (.run l')).status v = s.status v := fun v hv => by
    simp [Function.update_of_ne hv]
  have hadj : ∀ v i, s.status v = .run ⟨.adjust, i⟩ ↔
      (s.goto u (.run l')).status v = .run ⟨.adjust, i⟩ := by
    intro v i
    by_cases hv : v = u
    · subst hv
      rw [hs]
      simp only [State.goto_status, Function.update_self, Status.run.injEq]
      constructor <;> rintro rfl
      · exact absurd rfl hl
      · exact absurd rfl hl'
    · rw [hother v hv]
  constructor
  · exact fun hidle => h.idle fun v i hv => hidle v i ((hadj v i).1 hv)
  · exact fun v i hv => h.adjusting v i ((hadj v i).2 hv)
  · intro v l₁ hv
    by_cases hvu : v = u
    · subst hvu
      obtain rfl : l' = l₁ := by simpa using hv
      exact hk
    · exact h.known v l₁ (by rw [← hother v hvu]; exact hv)
  · by_cases hv : .inl () = u
    · subst hv
      simp [h.puts, hs, hdone]
    · rw [hother _ hv]; exact h.puts
  · by_cases hv : .inr () = u
    · subst hv
      simp [h.gets, hs, hdone]
    · rw [hother _ hv]; exact h.gets

/-- While one thread accesses its slot, no other thread holds the mutex. -/
theorem not_locked_of_slot {s : St Unit Unit} (ho : LockOwned s) {u : Unit ⊕ Unit} {i : ℕ}
    (hs : s.status u = .run ⟨.slot, i⟩) {v : Unit ⊕ Unit} (hv : v ≠ u) {l : Loc}
    (hl : s.status v = .run l) : ¬ l.Locked :=
  fun hlock => hv (eq_of_locked ho hl hs hlock trivial)

/-- The state after the access to the slot. -/
theorem Follows.slot {MAX : ℕ} {s : St Unit Unit} {t₁ : Stock MAX (Token Unit)}
    {u : Unit ⊕ Unit} {i : ℕ} {g : Mem (Token Unit)} (ho : LockOwned s)
    (hs : s.status u = .run ⟨.slot, i⟩) (hh : Holds ((side MAX u).adjust g) t₁.items)
    (hk : Known MAX u .adjust t₁.items.length)
    (hother : ∀ v l, v ≠ u → s.status v = .run l → ¬ l.Locked →
      Known MAX v l.pc t₁.items.length)
    (hp : t₁.puts = (((s.goto u (.run ⟨.adjust, i⟩)).status (.inl ())).loc.done))
    (hg : t₁.gets = (((s.goto u (.run ⟨.adjust, i⟩)).status (.inr ())).loc.done)) :
    Follows ((s.store g).goto u (.run ⟨.adjust, i⟩)) t₁ := by
  have hst : ∀ v l, v ≠ u →
      ((s.store g).goto u (.run ⟨.adjust, i⟩)).status v = .run l → s.status v = .run l :=
    fun v l hv hl => by simpa [Function.update_of_ne hv] using hl
  constructor
  · intro hidle
    exact absurd (by simp) (hidle u i)
  · intro v j hv
    by_cases hvu : v = u
    · subst hvu; exact hh
    · exact absurd trivial (not_locked_of_slot ho hs hvu (hst v _ hvu hv))
  · intro v l hv
    by_cases hvu : v = u
    · subst hvu
      obtain rfl : (⟨.adjust, i⟩ : Loc) = l := by simpa using hv
      exact hk
    · exact hother v l hvu (hst v l hvu hv) (not_locked_of_slot ho hs hvu (hst v l hvu hv))
  · exact hp
  · exact hg

/-- Every access to a slot is a step of the stack. -/
theorem follows_slot {MAX N : ℕ} {as : List (Action (Unit ⊕ Unit) (Event (Token Unit)))}
    {s : St Unit Unit} (hr : (system Unit Unit MAX N).Exec as s) {t : Stock MAX (Token Unit)}
    (hf : Follows s t) {u : Unit ⊕ Unit} {i : ℕ} (hs : s.status u = .run ⟨.slot, i⟩) :
    ∃ t₁, StockStep N tok t ((side MAX u).event i s.mem) t₁ ∧
      Follows ((s.store ((side MAX u).slot i s.mem)).goto u (.run ⟨.adjust, i⟩)) t₁ := by
  have ho := lockOwned hr
  have hi : i < N := (fits hr).at hs
  -- nobody stands between an access and its update, so the array holds the stack
  have hidle : ∀ v j, s.status v ≠ .run ⟨.adjust, j⟩ := by
    intro v j hv
    by_cases hvu : v = u
    · subst hvu; rw [hs] at hv; cases hv
    · exact not_locked_of_slot ho hs hvu hv trivial
  have hh := hf.idle hidle
  have hc := hh.count
  have hk := hf.known u _ hs
  cases u with
  | inl u =>
      have hroom : t.items.length < MAX := hk
      have hp : t.puts = i := by rw [hf.puts, hs]; rfl
      have htok : tok t.puts = (u, i) := by rw [hp]; rfl
      obtain ⟨t₁, hstep, hh₁, hp₁, hg₁⟩ :=
        hh.stock_put tok (by omega) (by omega : t.puts < N)
      have hlen : t₁.items.length = t.items.length + 1 := by
        have h₀ : ((s.mem.write (tok t.puts)).incr).count = t₁.items.length := hh₁.count
        simp only [Mem.incr_count, Mem.write_count] at h₀
        omega
      rw [htok] at hstep hh₁
      refine ⟨t₁, hstep, Follows.slot ho hs hh₁ (by simp only [Known]; omega) ?_ ?_ ?_⟩
      · -- the put can only help a consumer that has left its loop
        rintro (v | v) ⟨pc, j⟩ hv hl hlock
        · exact absurd rfl hv
        · cases pc <;> simp [Known, Loc.Locked] at hlock ⊢
          omega
      · simp [hp₁, hp, Loc.done]
      · simp [hg₁, hf.gets]
  | inr u =>
      have hsome : 0 < t.items.length := hk
      have hg : t.gets = i := by rw [hf.gets, hs]; rfl
      obtain ⟨t₁, hstep, hh₁, hp₁, hg₁⟩ :=
        hh.stock_get tok (by omega) (by omega : t.gets < N)
      have hlen : t.items.length = t₁.items.length + 1 := by
        have h₀ := hh₁.count
        simp only [Mem.decr_count] at h₀
        omega
      have hb := t.bounded
      refine ⟨t₁, hstep, Follows.slot ho hs hh₁ (by simp only [Known]; omega) ?_ ?_ ?_⟩
      · -- the get can only help a producer that has left its loop
        rintro (v | v) ⟨pc, j⟩ hv hl hlock
        · have hkv := hf.known _ _ hl
          cases pc <;> simp only [Known, Loc.Locked, not_true_eq_false] at hlock hkv ⊢
          all_goals omega
        · exact absurd rfl hv
      · simp [hp₁, hf.puts]
      · simp [hg₁, hg, Loc.done]

/-- The update of the counter completes the access. -/
theorem follows_adjust {MAX N : ℕ} {as : List (Action (Unit ⊕ Unit) (Event (Token Unit)))}
    {s : St Unit Unit} (hr : (system Unit Unit MAX N).Exec as s) {t : Stock MAX (Token Unit)}
    (hf : Follows s t) {u : Unit ⊕ Unit} {i : ℕ} (hs : s.status u = .run ⟨.adjust, i⟩) :
    Follows ((s.store ((side MAX u).adjust s.mem)).goto u (.run ⟨.unlock, i⟩)) t := by
  have hst : ∀ v l, v ≠ u → ((s.store ((side MAX u).adjust s.mem)).goto u
      (.run ⟨.unlock, i⟩)).status v = .run l → s.status v = .run l :=
    fun v l hv hl => by simpa [Function.update_of_ne hv] using hl
  constructor
  · exact fun _ => hf.adjusting u i hs
  · intro v j hv
    by_cases hvu : v = u
    · subst hvu; simp at hv
    · exact absurd (eq_of_locked (lockOwned hr) (hst v _ hvu hv) hs trivial trivial) hvu
  · intro v l hv
    by_cases hvu : v = u
    · subst hvu
      obtain rfl : (⟨.unlock, i⟩ : Loc) = l := by simpa using hv
      cases v <;> trivial
    · exact hf.known v l (hst v l hvu hv)
  · by_cases hv : .inl () = u
    · subst hv; simp [hf.puts, hs, Loc.done]
    · simp [Function.update_of_ne hv, hf.puts]
  · by_cases hv : .inr () = u
    · subst hv; simp [hf.gets, hs, Loc.done]
    · simp [Function.update_of_ne hv, hf.gets]

/-- A thread that leaves the spinning loop knows that the stack is not at its bound. -/
theorem known_of_clear {MAX : ℕ} {s : St Unit Unit} {t : Stock MAX (Token Unit)}
    (hf : Follows s t) {u : Unit ⊕ Unit} {i : ℕ} (hs : s.status u = .run ⟨.spin, i⟩)
    (hb : (side MAX u).blocked s.mem = false) : Known MAX u .lock t.items.length := by
  by_cases hadj : ∃ v j, s.status v = .run ⟨.adjust, j⟩
  · -- the other thread has accessed its slot, and knows what is needed
    obtain ⟨v, j, hv⟩ := hadj
    have hk := hf.known v _ hv
    rcases u with u | u <;> rcases v with v | v
    · rw [hs] at hv; cases hv
    · exact hk
    · exact hk
    · rw [hs] at hv; cases hv
  · push Not at hadj
    have hc := (hf.idle hadj).count
    have hbd := t.bounded
    cases u with
    | inl u =>
        have hne : s.mem.count ≠ MAX := by simpa [side, producerSide] using hb
        simp only [Known]
        omega
    | inr u =>
        have hne : s.mem.count ≠ 0 := by simpa [side, consumerSide] using hb
        simp only [Known]
        omega

/-- A silent move is invisible to the stack. -/
theorem follows_silent {MAX N : ℕ} {as : List (Action (Unit ⊕ Unit) (Event (Token Unit)))}
    {s s₁ : St Unit Unit} (hr : (system Unit Unit MAX N).Exec as s) {t : Stock MAX (Token Unit)}
    (hf : Follows s t) {e : Option (Event (Token Unit))} (hm : Move MAX N s e s₁)
    (he : e = none) : Follows s₁ t := by
  have hgive : ∀ o, Follows (s.give () o) t := fun o => ⟨hf.1, hf.2, hf.3, hf.4, hf.5⟩
  cases hm with
  | @enter u i hs _ => exact hf.goto hs (by simp) (by simp) rfl (by cases u <;> trivial)
  | @leave u i hs _ => exact hf.goto hs (by simp) (by simp) rfl (by cases u <;> trivial)
  | @blocked u i hs _ => exact hf.goto hs (by simp) (by simp) rfl (by cases u <;> trivial)
  | @clear u i hs hb => exact hf.goto hs (by simp) (by simp) rfl (known_of_clear hf hs hb)
  | @lock u i hs _ =>
      have hk := hf.known u _ hs
      exact (hgive _).goto hs (by simp) (by simp) rfl (by cases u <;> exact hk)
  | @slot u i hs => cases he
  | @adjust u i hs => exact follows_adjust hr hf hs
  | @unlock u i hs _ => exact (hgive _).goto hs (by simp) (by simp) rfl (by cases u <;> trivial)

/-- Every run follows the stack. -/
theorem simulates (MAX N : ℕ) :
    (system Unit Unit MAX N).Simulates Action.event (stockSystem MAX N tok) Follows where
  init s hs := by
    obtain rfl : s = start Unit Unit := hs
    refine ⟨Stock.empty MAX _, rfl, fun _ => ⟨rfl, rfl⟩, ?_, ?_, rfl, rfl⟩
    · intro u i hu
      simp [start] at hu
    · intro u l hu
      obtain rfl : (⟨.head, 0⟩ : Loc) = l := by simpa [start] using hu
      cases u <;> trivial
  silent as s a s₁ t hr hf hs ha :=
    follows_silent hr hf (move_of_step (fits hr).running hs) ha
  visible as s a e s₁ t hr hf hs ha := by
    obtain ⟨u, i, hu, rfl, rfl⟩ := (move_of_step (fits hr).running hs).visible ha
    exact follows_slot hr hf hu

/-- The head of a worker's loop. -/
def headAt (i : ℕ) : Loc := ⟨.head, i⟩

/-- Every step of the stack is one iteration of a thread. -/
theorem realises (MAX N : ℕ) :
    (system Unit Unit MAX N).Realises Action.event (stockSystem MAX N tok) (Rests headAt) := by
  refine realises_of_iterates ⟨start Unit Unit, rfl, ⟨rfl, rfl⟩, rfl, rfl, rfl⟩ ?_ ?_
  · intro t s hrest hN hroom
    exact run_iteration MAX hrest.producer hN hrest.owner (by simp [side, producerSide]; omega)
  · intro t s hrest hN hsome
    exact run_iteration MAX hrest.consumer hN hrest.owner (by simp [side, consumerSide]; omega)

/-- A thread that has made its accesses leaves. -/
theorem step_leave {MAX N : ℕ} (s : St Unit Unit) (u : Unit ⊕ Unit)
    (hu : s.status u = .run (headAt N)) :
    ∃ a, (system Unit Unit MAX N).step s a (s.goto u (.run ⟨.exit, N⟩)) ∧ a.event = none :=
  step_of_move (Move.leave hu (lt_irrefl N))

/-- **The sessions of the spinning buffer are the legal ones.** -/
theorem traces_eq (MAX N : ℕ) :
    (system Unit Unit MAX N).traces Action.event Complete = {es | Legal MAX N tok es} := by
  refine traces_eq_legal (simulates MAX N) (realises MAX N) step_leave ?_
  intro as s t hr hf hc
  have hdone : ∀ u, (s.status u).loc.done = N := fun u => by
    obtain ⟨i, hi⟩ := hc u
    have hfit := (fits hr).at hi
    rw [hi]
    exact hfit
  exact ⟨hf.puts.trans (hdone _), hf.gets.trans (hdone _)⟩

/-- The spinning buffer stays inside its array, in every run. -/
theorem slot_mem {MAX N : ℕ} {as : List (Action (Unit ⊕ Unit) (Event (Token Unit)))}
    {s : St Unit Unit} (h : (system Unit Unit MAX N).Exec as s) {e : Event (Token Unit)}
    (he : e ∈ as.filterMap Action.event) : 0 ≤ e.slot ∧ e.slot < MAX := by
  obtain ⟨t, ht, -⟩ := (simulates MAX N).exec h
  exact (records_of_exec ht).legal.slot_mem he

end SpinBuffer

/-! ### The comparison -/

namespace BoundedBuffer

/-- **The spinning buffer and the buffer with condition variables have the same complete sessions**,
namely the legal ones, and the spinning buffer never accesses a slot outside the array, in any run,
although it does not test the counter again under the lock. -/
theorem spin_traces_eq_cond_traces (MAX N : ℕ) :
    (SpinBuffer.system Unit Unit MAX N).traces Action.event SpinBuffer.Complete
        = (CondBuffer.system Unit Unit MAX N).traces Action.event CondBuffer.Complete ∧
      (CondBuffer.system Unit Unit MAX N).traces Action.event CondBuffer.Complete
        = {es | Legal MAX N tok es} ∧
      ∀ as s, (SpinBuffer.system Unit Unit MAX N).Exec as s →
        ∀ e ∈ as.filterMap Action.event, 0 ≤ e.slot ∧ e.slot < MAX :=
  ⟨(SpinBuffer.traces_eq MAX N).trans (CondBuffer.traces_eq MAX N).symm,
    CondBuffer.traces_eq MAX N, fun _ _ h _ he => SpinBuffer.slot_mem h he⟩

end BoundedBuffer
