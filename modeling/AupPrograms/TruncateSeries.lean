/-
**Truncating a file again and again** (`assignment_1/truncate.c`).

One call of `mytruncate` that has something to do leaves the file a byte longer than it should be.
So a second call with the same offset has something to do again, and this time there is nothing it
could extend.  This module follows a series of calls: from the smallest of the offsets on the file
holds zeros, and every call that finds another length than its offset makes the file longer.

Main definitions:

* `Truncate.calls` — calls of `mytruncate` on one file, one after another;
* `Truncate.zeroed` — a file that is zero from a position on;
* `Truncate.lengthAfter` — the length that a call leaves.

Main results:

* `Truncate.series_contents` — **the contents after any series of calls**;
* `Truncate.length_repeated` — the length after calls with the same offset.
-/

import AupPrograms.Lts
import AupPrograms.Truncate

set_option relaxedAutoImplicit false
set_option autoImplicit false

namespace Truncate

open OpenFile

/-! ### A series of calls -/

/-- One call of a series: which of its system calls fail, its offset, and what it returns. -/
structure Call where
  fails : Failures
  offset : ℤ
  result : ℤ

/-- Calls of `mytruncate` on one file, one after another. -/
def calls : Lts OpenFile Call where
  init _ := True
  step f c f' := Truncates c.fails f c.offset c.result f'

/-! ### What one call does to a file that ends in zeros -/

/-- The first `m` bytes, then zeros up to the length `n`. -/
def zeroed (bytes : List UInt8) (m n : ℕ) : List UInt8 :=
  bytes.take m ++ List.replicate (n - m) 0

/-- The length that a call leaves of a file of length `n`. -/
def lengthAfter (n offset : ℕ) : ℕ := if n = offset then n else max n offset + 1

variable {bytes : List UInt8} {m n : ℕ}

theorem length_zeroed (hm : m ≤ bytes.length) (hn : m ≤ n) : (zeroed bytes m n).length = n := by
  simp [zeroed]
  omega

theorem zeroed_length (bytes : List UInt8) : zeroed bytes bytes.length bytes.length = bytes := by
  simp [zeroed]

/-- Zeros are added. -/
theorem zeroed_append (hn : m ≤ n) (k : ℕ) :
    zeroed bytes m n ++ List.replicate k 0 = zeroed bytes m (n + k) := by
  have hsum : n - m + k = n + k - m := by omega
  rw [zeroed, List.append_assoc, List.replicate_append_replicate, hsum, zeroed]

/-- The beginning of such a file. -/
theorem take_zeroed (hm : m ≤ bytes.length) (k : ℕ) (hk : k ≤ n) :
    (zeroed bytes m n).take k = zeroed bytes (min m k) k := by
  have hlength : (bytes.take m).length = m := by simp [hm]
  have hzeros : min (k - m) (n - m) = k - min m k := by omega
  rw [zeroed, List.take_append, hlength, List.take_take, List.take_replicate, hzeros, min_comm k m,
    zeroed]

/-- **One call**: the zeros begin at the offset, if they have not begun before. -/
theorem truncates_zeroed (offset : ℕ) {f : OpenFile} (hf : f.bytes = zeroed bytes m n)
    (hm : m ≤ bytes.length) (hn : m ≤ n) (hL : n < 2 ^ 31 - 1) (hoffset : offset < 2 ^ 31) :
    ∃ f', Truncates noFailures f offset 0 f' ∧
      f'.bytes = zeroed bytes (min m offset) (lengthAfter n offset) := by
  have hlen : f.bytes.length = n := by rw [hf, length_zeroed hm hn]
  rcases lt_trichotomy n offset with hlt | heq | hgt
  · refine ⟨_, truncates_extend (hlen.trans_lt hlt) hoffset, ?_⟩
    have hmin : min m offset = m := by omega
    have hafter : lengthAfter n offset = n + (offset + 1 - n) := by
      rw [lengthAfter, if_neg hlt.ne]
      omega
    rw [hlen, hf, zeroed_append hn, hmin, hafter]
  · refine ⟨_, truncates_same (hlen.trans heq) hoffset, ?_⟩
    have hmin : min m offset = m := by omega
    rw [hf, hmin, lengthAfter, if_pos heq]
  · refine ⟨_, truncates_shorten (hgt.trans_eq hlen.symm) (by omega), ?_⟩
    have hafter : lengthAfter n offset = offset + (n + 1 - offset) := by
      rw [lengthAfter, if_neg hgt.ne']
      omega
    rw [hlen, hf, take_zeroed hm offset hgt.le, zeroed_append (min_le_right m offset), hafter]

/-! ### What a series of calls does -/

/-- The file becomes longer by one byte a call at most, once it is as long as its offset. -/
theorem foldl_lengthAfter_le (offsets : List ℕ) (n : ℕ) :
    offsets.foldl lengthAfter n ≤ offsets.foldl max n + offsets.length := by
  induction offsets using List.reverseRecOn with
  | nil => simp
  | append_singleton offsets offset ih =>
      simp only [List.foldl_append, List.foldl_cons, List.foldl_nil, List.length_append,
        List.length_singleton]
      rw [lengthAfter]
      split_ifs <;> omega

theorem le_foldl_lengthAfter (offsets : List ℕ) (n : ℕ) : n ≤ offsets.foldl lengthAfter n := by
  induction offsets using List.reverseRecOn with
  | nil => simp
  | append_singleton offsets offset ih =>
      simp only [List.foldl_append, List.foldl_cons, List.foldl_nil]
      rw [lengthAfter]
      split_ifs <;> omega

theorem foldl_min_le (offsets : List ℕ) (n : ℕ) : offsets.foldl min n ≤ n := by
  induction offsets using List.reverseRecOn with
  | nil => simp
  | append_singleton offsets offset ih =>
      simp only [List.foldl_append, List.foldl_cons, List.foldl_nil]
      omega

/-- The calls of a series, none of whose system calls fail, have the given offsets. -/
def Succeeding (cs : List Call) (offsets : List ℕ) : Prop :=
  cs.map (fun c => (c.fails, c.offset)) = offsets.map fun n : ℕ => (noFailures, (n : ℤ))

theorem Succeeding.snoc {cs : List Call} {offsets : List ℕ} (h : Succeeding cs offsets) (n : ℕ) :
    Succeeding (cs ++ [⟨noFailures, n, 0⟩]) (offsets ++ [n]) := by
  rw [Succeeding] at h ⊢
  simp only [List.map_append, h, List.map_cons, List.map_nil]

theorem of_succeeding_snoc {cs : List Call} {c : Call} {offsets : List ℕ}
    (h : Succeeding (cs ++ [c]) offsets) :
    ∃ offsets' offset, offsets = offsets' ++ [offset] ∧ Succeeding cs offsets' ∧
      c.fails = noFailures ∧ c.offset = (offset : ℕ) := by
  rw [Succeeding, List.map_append] at h
  obtain ⟨l₁, l₂, rfl, h₁, h₂⟩ := List.append_eq_map_iff.1 h
  obtain ⟨offset, rfl, hc⟩ : ∃ offset, l₂ = [offset] ∧ (noFailures, ((offset : ℕ) : ℤ))
      = (c.fails, c.offset) := by
    simpa using h₂
  obtain ⟨hfails, hoffset⟩ := Prod.mk.inj hc
  exact ⟨l₁, offset, rfl, h₁.symm, hfails.symm, hoffset.symm⟩

/-- **A run**: every call returns 0, and the zeros begin at the smallest offset. -/
theorem zeroed_of_run {f f' : OpenFile} {cs : List Call} (h : calls.Run f cs f') {offsets : List ℕ}
    (hcs : Succeeding cs offsets)
    (hbound : offsets.foldl max f.bytes.length + offsets.length < 2 ^ 31) :
    (∀ c ∈ cs, c.result = 0) ∧
      f'.bytes = zeroed f.bytes (offsets.foldl min f.bytes.length)
        (offsets.foldl lengthAfter f.bytes.length) := by
  induction h generalizing offsets with
  | nil =>
      obtain rfl : offsets = [] := List.map_eq_nil_iff.1 hcs.symm
      exact ⟨List.forall_mem_nil _, (zeroed_length f.bytes).symm⟩
  | @snoc g f' cs c _ hs ih =>
      obtain ⟨offsets, offset, rfl, hcs, hfails, hoffset⟩ := of_succeeding_snoc hcs
      simp only [List.foldl_append, List.foldl_cons, List.foldl_nil, List.length_append,
        List.length_singleton] at hbound ⊢
      obtain ⟨hresult, hg⟩ := ih hcs (by omega)
      have hlower := le_foldl_lengthAfter offsets f.bytes.length
      have hupper := foldl_lengthAfter_le offsets f.bytes.length
      have hmin := foldl_min_le offsets f.bytes.length
      obtain ⟨f₁, hf₁, hbytes⟩ := truncates_zeroed offset hg hmin (hmin.trans hlower)
        (by omega) (by omega)
      have hs : Truncates noFailures g offset c.result f' := by
        rw [← hfails, ← hoffset]
        exact hs
      obtain ⟨hzero, rfl⟩ := hf₁.unique hs
      refine ⟨fun b hb => ?_, hbytes⟩
      rcases List.mem_append.1 hb with hb | hb
      · exact hresult b hb
      · rw [List.mem_singleton.1 hb, ← hzero]

/-- There is such a run. -/
theorem exists_run {f : OpenFile} {offsets : List ℕ}
    (hbound : offsets.foldl max f.bytes.length + offsets.length < 2 ^ 31) :
    ∃ cs f', calls.Run f cs f' ∧ Succeeding cs offsets := by
  induction offsets using List.reverseRecOn with
  | nil => exact ⟨[], f, .nil f, rfl⟩
  | append_singleton offsets offset ih =>
      simp only [List.foldl_append, List.foldl_cons, List.foldl_nil, List.length_append,
        List.length_singleton] at hbound
      obtain ⟨cs, g, hrun, hcs⟩ := ih (by omega)
      obtain ⟨-, hg⟩ := zeroed_of_run hrun hcs (by omega)
      have hlower := le_foldl_lengthAfter offsets f.bytes.length
      have hupper := foldl_lengthAfter_le offsets f.bytes.length
      have hmin := foldl_min_le offsets f.bytes.length
      obtain ⟨f', hf', -⟩ := truncates_zeroed offset hg hmin (hmin.trans hlower)
        (by omega) (by omega)
      have hs : calls.Run f (cs ++ [⟨noFailures, offset, 0⟩]) f' := Lts.Run.snoc hrun hf'
      exact ⟨_, f', hs, hcs.snoc offset⟩

/-- **The contents after a series of calls**, none of whose system calls fail: all calls return 0;
the file is zero from the smallest of the offsets on, and every call that found another length than
its offset has made the file one byte longer than the longer of the two. -/
theorem series_contents {f : OpenFile} {offsets : List ℕ}
    (hbound : offsets.foldl max f.bytes.length + offsets.length < 2 ^ 31) :
    (∃ cs f', calls.Run f cs f' ∧ Succeeding cs offsets) ∧
      ∀ cs f', calls.Run f cs f' → Succeeding cs offsets → (∀ c ∈ cs, c.result = 0) ∧
        f'.bytes = zeroed f.bytes (offsets.foldl min f.bytes.length)
          (offsets.foldl lengthAfter f.bytes.length) :=
  ⟨exists_run hbound, fun _ _ h hcs => zeroed_of_run h hcs hbound⟩

/-- `hello` is to be truncated to two bytes twice, and has seven in the end. -/
theorem series_contents_hello :
    ∃ cs f', calls.Run ⟨[104, 101, 108, 108, 111], 0⟩ cs f' ∧ Succeeding cs [2, 2] ∧
      f'.bytes = [104, 101, 0, 0, 0, 0, 0] := by
  have h := @series_contents ⟨[104, 101, 108, 108, 111], 0⟩ [2, 2] (by simp)
  obtain ⟨⟨cs, f', hrun, hcs⟩, hall⟩ := h
  exact ⟨cs, f', hrun, hcs, (hall cs f' hrun hcs).2⟩

/-- **Calls with the same offset** make the file longer every time, unless it has that length. -/
theorem length_repeated (n offset k : ℕ) (h : n ≠ offset) :
    (List.replicate (k + 1) offset).foldl lengthAfter n = max n offset + (k + 1) := by
  induction k with
  | zero => simp [lengthAfter, h]
  | succ k ih =>
      rw [List.replicate_succ', List.foldl_append, ih, List.foldl_cons, List.foldl_nil, lengthAfter,
        if_neg (by omega)]
      omega

end Truncate
