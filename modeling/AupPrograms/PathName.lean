/-
**Path names.**

Path names are strings of bytes; each `Char` stands for one.  This module has the string functions
on them that the C library documents, and what they do on a path that ends in a name.  Where the
standard leaves it open whether the two slashes of `//n` are one root, `dirname` keeps both.

Main definitions:

* `PathName.dirname`, `PathName.basename`, `PathName.contains` — the string functions;
* `PathName.join`, `PathName.components` — building a path, and taking it apart;
* `PathName.front` — a path up to its last slash.

Main results:

* `PathName.eq_name_or_join` — a path is a name, or a name below something, trailing slashes apart;
* `PathName.IsName.dirname_join`, `PathName.basename_join` — the two parts of a path;
* `PathName.dot_mem_dirname_join` — whether there is a dot in the directory of a path below another
  one.
-/

import Mathlib.Data.List.DropRight
import Mathlib.Data.List.Infix
import Mathlib.Data.List.Basic

set_option relaxedAutoImplicit false
set_option autoImplicit false

namespace PathName

/-- A string, without its terminator.  A `Char` is one byte, so that lengths are sizes. -/
abbrev Str := List Char

/-! ### Strings -/

/-- `strstr(s, pat) != NULL`. -/
def contains (s pat : Str) : Bool := decide (pat <:+: s)

/-- The string without trailing slashes. -/
def stripSlashes (s : Str) : Str := s.rdropWhile (· == '/')

/-- `basename`: the last component, trailing slashes apart. -/
def basename (s : Str) : Str :=
  if s = [] then ['.']
  else if stripSlashes s = [] then ['/']
  else (stripSlashes s).rtakeWhile (· != '/')

/-- The string up to its last slash. -/
def front (s : Str) : Str := s.rdropWhile (· != '/')

/-- Slashes alone name the root; exactly two of them are kept. -/
def rootOf (s : Str) : Str := if s = ['/', '/'] then s else ['/']

/-- `dirname`: what stands before the last component. -/
def dirname (s : Str) : Str :=
  let before := front (stripSlashes s)
  if s = [] then ['.']
  else if stripSlashes s = [] then rootOf s
  else if before = [] then ['.']
  else if stripSlashes before = [] then rootOf before
  else stripSlashes before

/-- `t` below `d`. -/
def join (d t : Str) : Str := d ++ '/' :: t

/-- The path starts at the root. -/
def IsAbsolute (s : Str) : Prop := s.head? = some '/'

instance (s : Str) : Decidable (IsAbsolute s) := inferInstanceAs (Decidable (_ = _))

/-- The components of a path, empty ones included. -/
def components (s : Str) : List Str := s.splitOn '/'

/-- The name of a directory entry. -/
def IsName (s : Str) : Prop := s ≠ [] ∧ '/' ∉ s

instance (s : Str) : Decidable (IsName s) := inferInstanceAs (Decidable (_ ∧ _))

@[simp] theorem components_join (d t : Str) :
    components (join d t) = components d ++ components t :=
  List.splitOn_append_cons_self d t

theorem components_nil : components [] = [[]] := rfl

theorem components_slash : components ['/'] = [[], []] := rfl

theorem components_slashes : components ['/', '/'] = [[], [], []] := rfl

theorem components_dot : components ['.'] = [['.']] := rfl

theorem components_of_not_mem {s : Str} (h : '/' ∉ s) : components s = [s] :=
  List.splitOn_eq_singleton h

@[simp] theorem stripSlashes_snoc (s : Str) : stripSlashes (s ++ ['/']) = stripSlashes s :=
  List.rdropWhile_concat_pos _ _ _ rfl

theorem stripSlashes_snoc_of_ne (s : Str) {c : Char} (h : c ≠ '/') :
    stripSlashes (s ++ [c]) = s ++ [c] := List.rdropWhile_concat_neg _ _ _ (by simpa using h)

/-- A name does not end in a slash. -/
theorem IsName.stripSlashes_append {n : Str} (hn : IsName n) (d : Str) :
    stripSlashes (d ++ n) = d ++ n := by
  obtain ⟨m, c, rfl⟩ := (List.eq_nil_or_concat' n).resolve_left hn.1
  have hc : c ≠ '/' := fun h => hn.2 (by simp [h])
  rw [← List.append_assoc, stripSlashes_snoc_of_ne _ hc]

/-- The last component of a path that ends in a name. -/
theorem IsName.rtakeWhile_join {n : Str} (hn : IsName n) (d : Str) :
    (join d n).rtakeWhile (· != '/') = n := by
  have hpos : ∀ c ∈ n.reverse, (c != '/') = true := by
    intro c hc
    have hne : c ≠ '/' := fun h => hn.2 (by rw [← h]; exact List.mem_reverse.1 hc)
    simpa using hne
  rw [List.rtakeWhile, join, List.reverse_append, List.reverse_cons, List.append_assoc,
    List.takeWhile_append_of_pos hpos]
  simp

/-- What stands before it. -/
theorem IsName.front_join {n : Str} (hn : IsName n) (d : Str) :
    front (join d n) = d ++ ['/'] := by
  have happ : front (join d n) ++ (join d n).rtakeWhile (· != '/') = join d n :=
    List.rdropWhile_append_rtakeWhile
  rw [hn.rtakeWhile_join] at happ
  refine (List.append_left_inj n).1 ?_
  rw [happ]
  simp [join]

theorem IsName.rtakeWhile {n : Str} (hn : IsName n) : n.rtakeWhile (· != '/') = n := by
  rw [List.rtakeWhile_eq_self_iff]
  intro c hc
  have hne : c ≠ '/' := fun h => hn.2 (by rw [← h]; exact hc)
  simpa using hne

/-- There is nothing before a name. -/
theorem IsName.front {n : Str} (hn : IsName n) : PathName.front n = [] := by
  rw [PathName.front, List.rdropWhile_eq_nil_iff]
  exact List.rtakeWhile_eq_self_iff.1 hn.rtakeWhile

/-- `dirname` of a path that ends in a name, below something. -/
theorem IsName.dirname_join {n : Str} (hn : IsName n) (d : Str) :
    dirname (join d n) =
      if stripSlashes d = [] then rootOf (d ++ ['/']) else stripSlashes d := by
  have hstrip : stripSlashes (join d n) = join d n := by
    have hsplit : join d n = (d ++ ['/']) ++ n := by simp [join]
    rw [hsplit]
    exact hn.stripSlashes_append _
  have hne : join d n ≠ [] := by simp [join]
  simp [dirname, hstrip, hne, hn.front_join]

/-- `dirname` of a name is the working directory. -/
theorem IsName.dirname {n : Str} (hn : IsName n) : PathName.dirname n = ['.'] := by
  have hstrip : stripSlashes n = n := by simpa using hn.stripSlashes_append []
  simp [PathName.dirname, hstrip, hn.front, hn.1]

theorem rootOf_eq (s : Str) : rootOf s = ['/', '/'] ∨ rootOf s = ['/'] := by
  unfold rootOf
  split_ifs with h
  · exact Or.inl h
  · exact Or.inr rfl

/-- `dirname` is never empty. -/
theorem dirname_ne_nil (s : Str) : PathName.dirname s ≠ [] := by
  have hroot : ∀ r, rootOf r ≠ [] := fun r => by
    rcases rootOf_eq r with h | h <;> simp [h]
  unfold PathName.dirname
  dsimp only
  split_ifs <;> simp_all

/-- A path that does not end in a slash is a name, or a name below something. -/
theorem eq_name_or_join {q : Str} (hq : q ≠ []) (hstrip : stripSlashes q = q) :
    IsName q ∨ ∃ d n, IsName n ∧ q = join d n := by
  have happ : q.rdropWhile (· != '/') ++ q.rtakeWhile (· != '/') = q :=
    List.rdropWhile_append_rtakeWhile
  have hname : IsName (q.rtakeWhile (· != '/')) := by
    refine ⟨fun hnil => ?_, fun hmem => ?_⟩
    · -- the last character would be a slash
      have hlast := List.rdropWhile_eq_self_iff.1 hstrip hq
      have hlast' := List.rtakeWhile_eq_nil_iff.1 hnil hq
      simp_all
    · simpa using List.mem_rtakeWhile_imp hmem
  rcases eq_or_ne (q.rdropWhile (· != '/')) [] with hnil | hne
  · rw [hnil, List.nil_append] at happ
    exact Or.inl (happ ▸ hname)
  · obtain ⟨d, c, hd⟩ := (List.eq_nil_or_concat' _).resolve_left hne
    have hc : c = '/' := by
      have hlast := List.rdropWhile_last_not (fun c => c != '/') q hne
      simpa [hd] using hlast
    refine Or.inr ⟨d, _, hname, ?_⟩
    rw [hd, hc] at happ
    simpa [join] using happ.symm

/-- The last component of a path below another one. -/
theorem basename_join {t : Str} (ht : stripSlashes t ≠ []) (d : Str) :
    basename (join d t) = basename t := by
  have hstrip : stripSlashes (join d t) = join d (stripSlashes t) := by
    have hback : (t.reverse.dropWhile (· == '/')) ≠ [] := fun h => ht (by
      rw [stripSlashes, List.rdropWhile, h]; rfl)
    have hrev : (join d t).reverse = t.reverse ++ '/' :: d.reverse := by simp [join]
    rw [stripSlashes, List.rdropWhile, hrev, List.dropWhile_append, if_neg (by simpa using hback)]
    simp [stripSlashes, List.rdropWhile, join]
  have hne : t ≠ [] := fun h => ht (by rw [h]; rfl)
  have hidem : stripSlashes (stripSlashes t) = stripSlashes t := List.rdropWhile_idempotent _ t
  rw [basename, if_neg (by simp [join]), hstrip, if_neg (by simp [join]), basename, if_neg hne,
    if_neg ht]
  rcases eq_name_or_join ht hidem with hn | ⟨d', n, hn, hd'⟩
  · rw [hn.rtakeWhile_join, hn.rtakeWhile]
  · have hassoc : join d (join d' n) = join (join d d') n := by simp [join]
    rw [hd', hn.rtakeWhile_join, hassoc, hn.rtakeWhile_join]

/-! ### Dots in directories -/

/-- Only slashes are stripped. -/
theorem mem_stripSlashes_iff {s : Str} {c : Char} (hc : c ≠ '/') : c ∈ stripSlashes s ↔ c ∈ s := by
  induction s using List.reverseRecOn with
  | nil => rfl
  | append_singleton s x ih =>
      rcases eq_or_ne x '/' with rfl | hx
      · rw [stripSlashes_snoc, ih]
        simp [hc]
      · rw [stripSlashes_snoc_of_ne s hx]

/-- The directory of a name below something has the dots of what it is below. -/
theorem IsName.dot_mem_dirname_join {n : Str} (hn : IsName n) (d : Str) :
    '.' ∈ PathName.dirname (join d n) ↔ '.' ∈ d := by
  have hdot : ('.' : Char) ≠ '/' := by decide
  rw [hn.dirname_join, ← mem_stripSlashes_iff (s := d) hdot]
  split_ifs with hd
  · rw [hd]
    rcases rootOf_eq (d ++ ['/']) with h | h <;> simp [h]
  · rfl

/-- **The directory of a path below another one has a dot** where one of the two has: the path that
comes first, or the other one up to its last slash. -/
theorem dot_mem_dirname_join {d t : Str} (ht : t ≠ []) (hstrip : stripSlashes t = t) :
    '.' ∈ dirname (join d t) ↔ '.' ∈ d ∨ '.' ∈ front t := by
  rcases eq_name_or_join ht hstrip with hn | ⟨d', n, hn, rfl⟩
  · rw [hn.dot_mem_dirname_join, hn.front]
    simp
  · have hassoc : join d (join d' n) = join (join d d') n := by simp [join]
    rw [hassoc, hn.dot_mem_dirname_join, hn.front_join]
    simp [join]

/-- A path does not end in a slash if what it is joined with does not. -/
theorem stripSlashes_of_join {d t : Str} (ht : t ≠ []) (h : stripSlashes (join d t) = join d t) :
    stripSlashes t = t := by
  obtain ⟨s, c, rfl⟩ := (List.eq_nil_or_concat' t).resolve_left ht
  rcases eq_or_ne c '/' with rfl | hc
  · have hjoin : join d (s ++ ['/']) = join d s ++ ['/'] := by simp [join]
    have hlast := List.rdropWhile_eq_self_iff.1 h (by simp [join])
    simp [hjoin] at hlast
  · exact stripSlashes_snoc_of_ne s hc

end PathName
