/-
**The bounded buffer as an abstract object.**

Two of the programs implement the same buffer: an array of `MAX_SIZE` slots and a counter, filled
and emptied at the same end.  This module says what such a buffer is for, without threads, locks or
an array: a bounded stack of tokens, and the event sequences of its complete sessions.

The event sequences are described twice.  `BoundedBuffer.Legal` is the declarative description:
`N` puts and `N` gets, between `0` and `MAX` more puts than gets in every prefix, and each get
returning the most recent unread token.  `BoundedBuffer.stockSystem` is the operational one, which
the programs are compared with step by step.  They agree (`BoundedBuffer.traces_stockSystem`).

Main definitions:

* `BoundedBuffer.Event` — a token put into a slot, or got from a slot;
* `BoundedBuffer.puts`, `BoundedBuffer.gets`, `BoundedBuffer.unread` — what an event sequence
  wrote, what it read, and the stack of tokens it left unread;
* `BoundedBuffer.Legal` — the legal complete sessions;
* `BoundedBuffer.Stock`, `BoundedBuffer.stockSystem` — the bounded stack and its transitions;
* `BoundedBuffer.Mem`, `BoundedBuffer.contents` — the array and the counter that represent it.
-/

import AupPrograms.Lts
import Mathlib.Algebra.Order.Ring.Int
import Mathlib.Data.List.Induction

set_option relaxedAutoImplicit false
set_option autoImplicit false

namespace BoundedBuffer

/-- A visible access to the buffer.  A get may find a slot that was never written. -/
inductive Event (τ : Type)
  | put (slot : ℤ) (v : τ)
  | get (slot : ℤ) (v : Option τ)
  deriving DecidableEq

variable {τ : Type}

/-- A token: the producer that writes it and the iteration it is in. -/
abbrev Token (P : Type) := P × ℕ

/-! ### Event sequences -/

/-- The token an event writes. -/
def Event.written : Event τ → Option τ
  | .put _ v => some v
  | .get _ _ => none

/-- What an event reads. -/
def Event.got : Event τ → Option (Option τ)
  | .put _ _ => none
  | .get _ v => some v

/-- The tokens written, in order. -/
def puts (es : List (Event τ)) : List τ := es.filterMap Event.written

/-- What the gets returned, in order. -/
def gets (es : List (Event τ)) : List (Option τ) := es.filterMap Event.got

/-- The effect of an event on the stack of unread tokens. -/
def pile (st : List τ) : Event τ → List τ
  | .put _ v => v :: st
  | .get _ _ => st.tail

/-- **The unread tokens after an event sequence**, the most recent first. -/
def unread (es : List (Event τ)) : List τ := es.foldl pile []

@[simp] theorem puts_nil : puts ([] : List (Event τ)) = [] := rfl
@[simp] theorem gets_nil : gets ([] : List (Event τ)) = [] := rfl
@[simp] theorem unread_nil : unread ([] : List (Event τ)) = [] := rfl

@[simp] theorem puts_snoc_put (es : List (Event τ)) (slot : ℤ) (v : τ) :
    puts (es ++ [.put slot v]) = puts es ++ [v] := by simp [puts, Event.written]

@[simp] theorem puts_snoc_get (es : List (Event τ)) (slot : ℤ) (v : Option τ) :
    puts (es ++ [.get slot v]) = puts es := by simp [puts, Event.written]

@[simp] theorem gets_snoc_put (es : List (Event τ)) (slot : ℤ) (v : τ) :
    gets (es ++ [.put slot v]) = gets es := by simp [gets, Event.got]

@[simp] theorem gets_snoc_get (es : List (Event τ)) (slot : ℤ) (v : Option τ) :
    gets (es ++ [.get slot v]) = gets es ++ [v] := by simp [gets, Event.got]

@[simp] theorem unread_snoc (es : List (Event τ)) (e : Event τ) :
    unread (es ++ [e]) = pile (unread es) e := by simp [unread]

theorem puts_length_mono {p es : List (Event τ)} (h : p <+: es) :
    (puts p).length ≤ (puts es).length := by
  obtain ⟨r, rfl⟩ := h
  simp [puts, List.filterMap_append]

theorem gets_length_mono {p es : List (Event τ)} (h : p <+: es) :
    (gets p).length ≤ (gets es).length := by
  obtain ⟨r, rfl⟩ := h
  simp [gets, List.filterMap_append]

/-! ### Legal sessions -/

/-- Every prefix stays within the capacity, every token goes into the first free slot, and every get
returns the most recent unread token.  `tok i` is the token of the `i`-th put. -/
structure LegalPrefix (MAX : ℕ) (tok : ℕ → τ) (es : List (Event τ)) : Prop where
  balance : ∀ p, p <+: es → (gets p).length ≤ (puts p).length ∧
    (puts p).length ≤ (gets p).length + MAX
  put_ok : ∀ (p : List (Event τ)) (slot : ℤ) (v : τ), p ++ [.put slot v] <+: es →
    slot = (puts p).length - (gets p).length ∧ v = tok (puts p).length
  get_ok : ∀ (p : List (Event τ)) (slot : ℤ) (v : Option τ), p ++ [.get slot v] <+: es →
    slot = (puts p).length - (gets p).length - 1 ∧ v = (unread p).head?

/-- **A legal complete session**: `N` puts and `N` gets. -/
structure Legal (MAX N : ℕ) (tok : ℕ → τ) (es : List (Event τ)) : Prop
    extends LegalPrefix MAX tok es where
  puts_length : (puts es).length = N
  gets_length : (gets es).length = N

/-- What the last event of a legal session has to satisfy. -/
def LegalNext (MAX : ℕ) (tok : ℕ → τ) (es : List (Event τ)) : Event τ → Prop
  | .put slot v => (puts es).length < (gets es).length + MAX ∧
      slot = (puts es).length - (gets es).length ∧ v = tok (puts es).length
  | .get slot v => (gets es).length < (puts es).length ∧
      slot = (puts es).length - (gets es).length - 1 ∧ v = (unread es).head?

theorem legalPrefix_nil (MAX : ℕ) (tok : ℕ → τ) : LegalPrefix MAX tok [] where
  balance p hp := by simp [List.prefix_nil.1 hp]
  put_ok p slot v hp := by simp at hp
  get_ok p slot v hp := by simp at hp

/-- Legal sessions grow one event at a time. -/
theorem legalPrefix_snoc {MAX : ℕ} {tok : ℕ → τ} {es : List (Event τ)} {e : Event τ} :
    LegalPrefix MAX tok (es ++ [e]) ↔ LegalPrefix MAX tok es ∧ LegalNext MAX tok es e := by
  constructor
  · intro h
    have hpre : es <+: es ++ [e] := List.prefix_append es [e]
    refine ⟨⟨fun p hp => h.balance p (hp.trans hpre), fun p slot v hp => h.put_ok p slot v
      (hp.trans hpre), fun p slot v hp => h.get_ok p slot v (hp.trans hpre)⟩, ?_⟩
    have hbal := h.balance _ (List.prefix_refl _)
    cases e with
    | put slot v =>
        have hok := h.put_ok es slot v (List.prefix_refl _)
        simp only [puts_snoc_put, gets_snoc_put, List.length_append, List.length_singleton] at hbal
        exact ⟨by omega, hok⟩
    | get slot v =>
        have hok := h.get_ok es slot v (List.prefix_refl _)
        simp only [puts_snoc_get, gets_snoc_get, List.length_append, List.length_singleton] at hbal
        exact ⟨by omega, hok⟩
  · rintro ⟨h, hn⟩
    have hbal := h.balance _ (List.prefix_refl _)
    refine ⟨fun p hp => ?_, fun p slot v hp => ?_, fun p slot v hp => ?_⟩
    · rcases List.prefix_concat_iff.1 hp with rfl | hp
      · cases e <;> simp [LegalNext] at hn ⊢ <;> omega
      · exact h.balance p hp
    · rcases List.prefix_concat_iff.1 hp with heq | hp
      · obtain ⟨rfl, rfl⟩ : p = es ∧ Event.put slot v = e := by simpa using heq
        exact hn.2
      · exact h.put_ok p slot v hp
    · rcases List.prefix_concat_iff.1 hp with heq | hp
      · obtain ⟨rfl, rfl⟩ : p = es ∧ Event.get slot v = e := by simpa using heq
        exact hn.2
      · exact h.get_ok p slot v hp

/-- The slot an event touches. -/
def Event.slot : Event τ → ℤ
  | .put slot _ | .get slot _ => slot

/-- A legal session stays inside the array. -/
theorem LegalPrefix.slot_mem {MAX : ℕ} {tok : ℕ → τ} {es : List (Event τ)}
    (h : LegalPrefix MAX tok es) {e : Event τ} (he : e ∈ es) : 0 ≤ e.slot ∧ e.slot < MAX := by
  obtain ⟨p, r, rfl⟩ := List.append_of_mem he
  have hpre : p ++ [e] <+: p ++ e :: r := ⟨r, by simp⟩
  have hbal := h.balance _ hpre
  cases e with
  | put slot v =>
      obtain ⟨hslot, -⟩ := h.put_ok p slot v hpre
      have hbal' := h.balance p (List.prefix_append p _)
      simp only [puts_snoc_put, gets_snoc_put, List.length_append, List.length_singleton] at hbal
      simp only [Event.slot, hslot]
      omega
  | get slot v =>
      obtain ⟨hslot, -⟩ := h.get_ok p slot v hpre
      have hbal' := h.balance p (List.prefix_append p _)
      simp only [puts_snoc_get, gets_snoc_get, List.length_append, List.length_singleton] at hbal
      simp only [Event.slot, hslot]
      omega

/-! ### The bounded stack -/

/-- A stack of at most `MAX` tokens, with the numbers of puts and gets it has seen. -/
structure Stock (MAX : ℕ) (τ : Type) where
  items : List τ
  bounded : items.length ≤ MAX
  puts : ℕ
  gets : ℕ

/-- The empty stock. -/
def Stock.empty (MAX : ℕ) (τ : Type) : Stock MAX τ := ⟨[], Nat.zero_le _, 0, 0⟩

/-- One put or one get; `N` of each are allowed.  That a put finds room is part of `t'` being a
`Stock`. -/
inductive StockStep {MAX : ℕ} (N : ℕ) (tok : ℕ → τ) :
    Stock MAX τ → Event τ → Stock MAX τ → Prop
  | put {t t' : Stock MAX τ} (hN : t.puts < N) (hi : t'.items = tok t.puts :: t.items)
      (hp : t'.puts = t.puts + 1) (hg : t'.gets = t.gets) :
      StockStep N tok t (.put t.items.length (tok t.puts)) t'
  | get {t t' : Stock MAX τ} {v : τ} (hN : t.gets < N) (hi : t.items = v :: t'.items)
      (hp : t'.puts = t.puts) (hg : t'.gets = t.gets + 1) :
      StockStep N tok t (.get t'.items.length (some v)) t'

/-- The sessions of the bounded stack. -/
def stockSystem (MAX N : ℕ) (tok : ℕ → τ) : Lts (Stock MAX τ) (Event τ) where
  init t := t = Stock.empty MAX τ
  step := StockStep N tok

/-- All puts and gets have been made. -/
def Stock.Complete {MAX : ℕ} (N : ℕ) (t : Stock MAX τ) : Prop := t.puts = N ∧ t.gets = N

/-- The stock records the event sequence that led to it. -/
structure Records {MAX : ℕ} (N : ℕ) (tok : ℕ → τ) (es : List (Event τ)) (t : Stock MAX τ) :
    Prop where
  legal : LegalPrefix MAX tok es
  items : t.items = unread es
  puts : t.puts = (puts es).length
  gets : t.gets = (gets es).length
  balance : t.puts = t.gets + t.items.length

theorem records_of_exec {MAX N : ℕ} {tok : ℕ → τ} {es : List (Event τ)} {t : Stock MAX τ}
    (h : (stockSystem MAX N tok).Exec es t) : Records N tok es t := by
  refine Lts.Exec.invariant (I := Records N tok) ?_ ?_ h
  · rintro t rfl
    exact ⟨legalPrefix_nil MAX tok, rfl, rfl, rfl, rfl⟩
  · rintro es t e t' - hr hs
    have hbal := hr.balance
    cases hs with
    | put hN hi hp hg =>
        have hroom : t.items.length + 1 ≤ MAX := by simpa [hi] using t'.bounded
        have hnext : LegalNext MAX tok es (.put t.items.length (tok t.puts)) := by
          refine ⟨?_, ?_, by rw [hr.puts]⟩ <;> rw [← hr.puts, ← hr.gets] <;> omega
        refine ⟨legalPrefix_snoc.2 ⟨hr.legal, hnext⟩, ?_, ?_, ?_, ?_⟩
        · rw [hi, unread_snoc, ← hr.items]; rfl
        · simp [hp, hr.puts]
        · simp [hg, hr.gets]
        · simp only [hp, hg, hi, List.length_cons]; omega
    | @get _ v hN hi hp hg =>
        have hlen : t.items.length = t'.items.length + 1 := by rw [hi]; rfl
        have hnext : LegalNext MAX tok es (.get t'.items.length (some v)) := by
          refine ⟨?_, ?_, by rw [← hr.items, hi]; rfl⟩ <;> rw [← hr.puts, ← hr.gets] <;> omega
        refine ⟨legalPrefix_snoc.2 ⟨hr.legal, hnext⟩, ?_, ?_, ?_, ?_⟩
        · rw [unread_snoc, ← hr.items, hi]; rfl
        · simp [hp, hr.puts]
        · simp [hg, hr.gets]
        · omega

/-- Every legal event sequence with at most `N` puts and gets is performed by the stack. -/
theorem exists_exec {MAX N : ℕ} {tok : ℕ → τ} (es : List (Event τ)) :
    LegalPrefix MAX tok es → (puts es).length ≤ N → (gets es).length ≤ N →
      ∃ t, (stockSystem MAX N tok).Exec es t := by
  -- the events are performed from the first to the last
  induction es using List.reverseRecOn with
  | nil => intro _ _ _; exact ⟨_, Lts.Exec.init rfl⟩
  | append_singleton es e ih =>
      intro hl hp hg
      obtain ⟨hl, hn⟩ := legalPrefix_snoc.1 hl
      have hpre : es <+: es ++ [e] := List.prefix_append es [e]
      obtain ⟨t, ht⟩ := ih hl ((puts_length_mono hpre).trans hp)
        ((gets_length_mono hpre).trans hg)
      have hr := records_of_exec ht
      have hbal := hr.balance
      cases e with
      | put slot v =>
          obtain ⟨hroom, hslot, rfl⟩ := hn
          rw [← hr.puts, ← hr.gets] at hroom hslot
          have hcount : (puts (es ++ [Event.put slot (tok (puts es).length)])).length
              = (puts es).length + 1 := by simp
          have hN : t.puts < N := by have := hr.puts; omega
          obtain rfl : slot = t.items.length := by omega
          refine ⟨⟨tok t.puts :: t.items, by simp; omega, t.puts + 1, t.gets⟩, ?_⟩
          rw [← hr.puts]
          exact ht.trans (Lts.Run.single (StockStep.put hN rfl rfl rfl))
      | get slot v =>
          obtain ⟨hsome, hslot, rfl⟩ := hn
          rw [← hr.puts, ← hr.gets] at hsome hslot
          have hcount : (gets (es ++ [Event.get slot (unread es).head?])).length
              = (gets es).length + 1 := by simp
          have hN : t.gets < N := by have := hr.gets; omega
          cases hi : t.items with
          | nil => simp [hi] at hbal; omega
          | cons x rest =>
              have hlen : t.items.length = rest.length + 1 := by rw [hi]; rfl
              have hb := t.bounded
              obtain rfl : slot = rest.length := by omega
              let t₁ : Stock MAX τ := ⟨rest, by omega, t.puts, t.gets + 1⟩
              have hstep : StockStep N tok t (.get t₁.items.length (some x)) t₁ :=
                StockStep.get hN hi rfl rfl
              refine ⟨t₁, ?_⟩
              rw [← hr.items, hi]
              exact ht.trans (Lts.Run.single hstep)

/-- **The complete sessions of the bounded stack are exactly the legal ones.** -/
theorem traces_stockSystem (MAX N : ℕ) (tok : ℕ → τ) :
    (stockSystem MAX N tok).traces some (Stock.Complete N) = {es | Legal MAX N tok es} := by
  ext es
  constructor
  · rintro ⟨es', t, ht, ⟨hp, hg⟩, rfl⟩
    have hr := records_of_exec ht
    rw [List.filterMap_some]
    exact ⟨hr.legal, hr.puts.symm.trans hp, hr.gets.symm.trans hg⟩
  · intro hl
    obtain ⟨t, ht⟩ := exists_exec es hl.toLegalPrefix hl.puts_length.le hl.gets_length.le
    have hr := records_of_exec ht
    exact ⟨es, t, ht, ⟨hr.puts.trans hl.puts_length, hr.gets.trans hl.gets_length⟩,
      List.filterMap_some⟩

/-! ### The array and the counter -/

/-- The shared memory of both programs: the counter and the array, in which a slot that was never
written holds no token. -/
structure Mem (τ : Type) where
  count : ℤ
  buf : ℤ → Option τ

/-- What the slots `0, …, count - 1` hold. -/
def contents (g : Mem τ) : List (Option τ) :=
  (List.range g.count.toNat).map fun j : ℕ => g.buf j

/-- `buf[count] = v`. -/
def Mem.write (v : τ) (g : Mem τ) : Mem τ :=
  { g with buf := Function.update g.buf g.count (some v) }

/-- `count++`. -/
def Mem.incr (g : Mem τ) : Mem τ := { g with count := g.count + 1 }

/-- `count--`. -/
def Mem.decr (g : Mem τ) : Mem τ := { g with count := g.count - 1 }

@[simp] theorem Mem.write_count (v : τ) (g : Mem τ) : (g.write v).count = g.count := rfl
@[simp] theorem Mem.incr_count (g : Mem τ) : g.incr.count = g.count + 1 := rfl
@[simp] theorem Mem.decr_count (g : Mem τ) : g.decr.count = g.count - 1 := rfl

@[simp] theorem contents_length (g : Mem τ) : (contents g).length = g.count.toNat := by
  simp [contents]

/-- The slot at `count` is the next one to become part of the contents. -/
theorem contents_incr {g : Mem τ} (h : 0 ≤ g.count) :
    contents g.incr = contents g ++ [g.buf g.count] := by
  have hn : (g.count + 1).toNat = g.count.toNat + 1 := by omega
  have hc : ((g.count.toNat : ℕ) : ℤ) = g.count := by omega
  simp [contents, Mem.incr, hn, List.range_succ, hc]

/-- The slot at `count - 1` is the last one of the contents. -/
theorem contents_decr {g : Mem τ} (h : 0 < g.count) :
    contents g = contents g.decr ++ [g.buf (g.count - 1)] := by
  have hinc : g.decr.incr = g := by simp [Mem.decr, Mem.incr]
  have := contents_incr (g := g.decr) (by simp; omega)
  rwa [hinc] at this

/-- Writing at `count` does not touch the contents. -/
@[simp] theorem contents_write (v : τ) (g : Mem τ) : contents (g.write v) = contents g := by
  refine List.map_congr_left fun j hj => ?_
  have hne : (j : ℤ) ≠ g.count := by
    have := List.mem_range.1 hj
    simp only [Mem.write_count] at this
    omega
  exact Function.update_of_ne hne _ _

/-- Putting a token appends it to the contents. -/
theorem contents_put {g : Mem τ} (h : 0 ≤ g.count) (v : τ) :
    contents (g.write v).incr = contents g ++ [some v] := by
  rw [contents_incr (by simpa using h), contents_write]
  simp [Mem.write]

/-- The array and the counter hold the tokens `items`, the most recent at the top. -/
structure Holds (g : Mem τ) (items : List τ) : Prop where
  count : g.count = items.length
  contents : contents g = items.reverse.map some

theorem Holds.put {g : Mem τ} {items : List τ} (h : Holds g items) (v : τ) :
    Holds (g.write v).incr (v :: items) where
  count := by simp [h.count]
  contents := by rw [contents_put (by rw [h.count]; omega), h.contents]; simp

/-- The slot below the counter holds the most recent token. -/
theorem Holds.top {g : Mem τ} {v : τ} {items : List τ} (h : Holds g (v :: items)) :
    g.buf (g.count - 1) = some v ∧ Holds g.decr items := by
  have hpos : 0 < g.count := by rw [h.count]; simp
  have hsplit : BoundedBuffer.contents g.decr ++ [g.buf (g.count - 1)]
      = items.reverse.map some ++ [some v] := by
    rw [← contents_decr hpos, h.contents]; simp
  obtain ⟨hinit, hlast⟩ := List.append_inj' hsplit rfl
  exact ⟨by simpa using hlast, by simp [h.count], hinit⟩

/-- A put into an array that holds the stack is a put onto the stack. -/
theorem Holds.stock_put {MAX N : ℕ} (tok : ℕ → τ) {g : Mem τ} {t : Stock MAX τ}
    (h : Holds g t.items) (hroom : g.count < MAX) (hN : t.puts < N) :
    ∃ t₁ : Stock MAX τ, StockStep N tok t (.put g.count (tok t.puts)) t₁ ∧
      Holds (g.write (tok t.puts)).incr t₁.items ∧ t₁.puts = t.puts + 1 ∧ t₁.gets = t.gets := by
  have hlen : t.items.length < MAX := by have := h.count; omega
  let t₁ : Stock MAX τ := ⟨tok t.puts :: t.items, hlen, t.puts + 1, t.gets⟩
  have hstep : StockStep N tok t (.put t.items.length (tok t.puts)) t₁ :=
    StockStep.put hN rfl rfl rfl
  exact ⟨t₁, by rw [h.count]; exact hstep, h.put _, rfl, rfl⟩

/-- A get from an array that holds the stack is a get from the stack. -/
theorem Holds.stock_get {MAX N : ℕ} (tok : ℕ → τ) {g : Mem τ} {t : Stock MAX τ}
    (h : Holds g t.items) (hsome : 0 < g.count) (hN : t.gets < N) :
    ∃ t₁ : Stock MAX τ, StockStep N tok t (.get (g.count - 1) (g.buf (g.count - 1))) t₁ ∧
      Holds g.decr t₁.items ∧ t₁.puts = t.puts ∧ t₁.gets = t.gets + 1 := by
  have hc := h.count
  cases hi : t.items with
  | nil => simp [hi] at hc; omega
  | cons v rest =>
      rw [hi] at h
      obtain ⟨htop, hrest⟩ := h.top
      have hlen : t.items.length = rest.length + 1 := by rw [hi]; rfl
      have hb := t.bounded
      let t₁ : Stock MAX τ := ⟨rest, by omega, t.puts, t.gets + 1⟩
      have hstep : StockStep N tok t (.get t₁.items.length (some v)) t₁ :=
        StockStep.get hN hi rfl rfl
      have hslot : g.count - 1 = t₁.items.length := by simp only [t₁]; omega
      exact ⟨t₁, by rw [htop, hslot]; exact hstep, hrest, rfl, rfl⟩

/-- What a step of the stack finds in an array that holds it. -/
theorem StockStep.mem {MAX N : ℕ} {tok : ℕ → τ} {g : Mem τ} {t t₁ : Stock MAX τ} {e : Event τ}
    (h : StockStep N tok t e t₁) (hh : Holds g t.items) :
    (t.puts < N ∧ g.count < MAX ∧ e = .put g.count (tok t.puts) ∧
        Holds (g.write (tok t.puts)).incr t₁.items ∧ t₁.puts = t.puts + 1 ∧ t₁.gets = t.gets) ∨
      (t.gets < N ∧ 0 < g.count ∧ e = .get (g.count - 1) (g.buf (g.count - 1)) ∧
        Holds g.decr t₁.items ∧ t₁.puts = t.puts ∧ t₁.gets = t.gets + 1) := by
  have hc := hh.count
  cases h with
  | put hN hi hp hg =>
      have hroom : t.items.length + 1 ≤ MAX := by simpa [hi] using t₁.bounded
      refine Or.inl ⟨hN, by omega, by rw [hc], ?_, hp, hg⟩
      rw [hi]
      exact hh.put _
  | @get _ v hN hi hp hg =>
      rw [hi] at hh
      obtain ⟨htop, hrest⟩ := hh.top
      have hlen : t.items.length = t₁.items.length + 1 := by rw [hi]; rfl
      have hslot : g.count - 1 = t₁.items.length := by omega
      exact Or.inr ⟨hN, by omega, by rw [htop, hslot], hrest, hp, hg⟩

end BoundedBuffer
