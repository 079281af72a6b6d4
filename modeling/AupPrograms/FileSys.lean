/-
**A file system with symbolic links.**

A path name is looked up component by component.  A link that is used as a directory is followed,
and the links in its target with it; a link at the end of a path is not.  A lookup fails where links
would be nested deeper than a limit that the file system has, so a link that leads back to itself
is no directory.

Main definitions:

* `FileSys` — directories and links, as a process sees them;
* `FileSys.dirAt`, `FileSys.dir` — the directory that a place is, or leads to as a link;
* `FileSys.resolve`, `FileSys.readlink` — the file a path names, and the target of a link;
* `FileSys.follow`, `FileSys.Acyclic` — the file a target names, as the system reads it, and that no
  chain of links is endless;
* `FileSys.FiniteLinks` — there are finitely many links.

Main results:

* `FileSys.dir_dirname` — **`dirname` leads to the directory of a file**;
* `FileSys.resolve_join` — a path below another one is looked up from there;
* `FileSys.dirAt_eq_of_card_le` — **a limit that is no less than the number of links is as good as
  none**: only a link that leads back to itself fails.
-/

import AupPrograms.PathName
import Mathlib.Data.Set.Finite.Lattice

set_option relaxedAutoImplicit false
set_option autoImplicit false

open PathName

/-- A file, by the names that lead to it from the root, the innermost first. -/
abbrev Loc := List Str

/-- **A file system as it is seen by a process**: its directories, its symbolic links and the
working directory. -/
structure FileSys where
  /-- How deep the links in a lookup may be nested. -/
  nest : ℕ
  /-- There is a directory at this place. -/
  isDir : Loc → Bool
  /-- The target of the link at this place, if there is one. -/
  link : Loc → Option Str
  /-- The working directory. -/
  cwd : Loc
  isDir_root : isDir [] = true
  isDir_cwd : isDir cwd = true
  isDir_parent : ∀ n l, isDir (n :: l) = true → isDir l = true
  not_isDir_of_link : ∀ l t, link l = some t → isDir l = false
  target_ne_nil : ∀ l t, link l = some t → t ≠ []

namespace FileSys

/-- Finitely many directories and links that make a file system. -/
def Valid (dirs : List Loc) (links : List (Loc × Str)) (cwd : Loc) : Prop :=
  [] ∈ dirs ∧ cwd ∈ dirs ∧ (∀ d ∈ dirs, d.tail ∈ dirs) ∧ ∀ p ∈ links, p.1 ∉ dirs ∧ p.2 ≠ []

instance (dirs : List Loc) (links : List (Loc × Str)) (cwd : Loc) :
    Decidable (Valid dirs links cwd) := inferInstanceAs (Decidable (_ ∧ _ ∧ _ ∧ _))

theorem mem_of_lookup {links : List (Loc × Str)} {l : Loc} {t : Str}
    (h : links.lookup l = some t) : (l, t) ∈ links := by
  obtain ⟨before, after, rfl, -⟩ := List.lookup_eq_some_iff.1 h
  simp

/-- The file system of finitely many directories and links. -/
def ofLists (dirs : List Loc) (links : List (Loc × Str)) (cwd : Loc) (h : Valid dirs links cwd) :
    FileSys where
  nest := links.length
  isDir l := decide (l ∈ dirs)
  link l := links.lookup l
  cwd := cwd
  isDir_root := decide_eq_true h.1
  isDir_cwd := decide_eq_true h.2.1
  isDir_parent n l hl := decide_eq_true (h.2.2.1 (n :: l) (of_decide_eq_true hl))
  not_isDir_of_link _ _ hl := decide_eq_false (h.2.2.2 _ (mem_of_lookup hl)).1
  target_ne_nil _ _ hl := (h.2.2.2 _ (mem_of_lookup hl)).2

variable (fs : FileSys)

/-- The place that one component names in a directory. -/
def enter (l : Loc) (c : Str) : Loc :=
  if c = [] ∨ c = ['.'] then l else if c = ['.', '.'] then l.tail else c :: l

/-- Looking up components from a place, where `dir` says which directory is found at a place. -/
def lookup (dir : Loc → Option Loc) (l : Loc) : List Str → Option Loc
  | [] => some l
  | c :: cs => (dir l).bind fun m => lookup dir (enter m c) cs

/-- Where the target `t` of the link at `l` is looked up from. -/
def source (l : Loc) (t : Str) : Loc := if IsAbsolute t then [] else l.tail

/-- **The directory that is found at a place**: the place itself, or what a link there leads to,
with at most `n` links nested. -/
def dirAt : ℕ → Loc → Option Loc
  | 0, l => if fs.isDir l then some l else none
  | n + 1, l =>
      if fs.isDir l then some l
      else (fs.link l).bind fun t =>
        (lookup (dirAt n) (source l t) (components t)).bind (dirAt n)

def dir (l : Loc) : Option Loc := fs.dirAt fs.nest l

/-- Following components from a place; all but the last lead through directories. -/
def walk (l : Loc) (cs : List Str) : Option Loc := lookup fs.dir l cs

/-- Where a path starts. -/
def origin (s : Str) : Loc := if IsAbsolute s then [] else fs.cwd

/-- **The file a path names.** -/
def resolve (s : Str) : Option Loc :=
  if s = [] then none else fs.walk (fs.origin s) (components s)

/-- `readlink`: the target of the link a path names. -/
def readlink (s : Str) : Option Str := (fs.resolve s).bind fs.link

/-- The file that the target `t` of the link at `l` names. -/
def follow (l : Loc) (t : Str) : Option Loc := fs.walk (source l t) (components t)

/-- **No chain of links, followed as the system does, is endless.** -/
def Acyclic : Prop := WellFounded fun l' l => ∃ t, fs.link l = some t ∧ fs.follow l t = some l'

variable {fs}

@[simp] theorem enter_nil (l : Loc) : enter l [] = l := by simp [enter]

@[simp] theorem enter_dot (l : Loc) : enter l ['.'] = l := by simp [enter]

/-- A directory is found where it is. -/
theorem dirAt_of_isDir {l : Loc} (hl : fs.isDir l = true) (n : ℕ) : fs.dirAt n l = some l := by
  cases n <;> simp [dirAt, hl]

/-- What is found is a directory. -/
theorem isDir_of_dirAt {n : ℕ} {l m : Loc} (h : fs.dirAt n l = some m) : fs.isDir m = true := by
  induction n generalizing l with
  | zero =>
      by_cases hl : fs.isDir l = true
      · rw [dirAt_of_isDir hl] at h
        rwa [← Option.some_inj.1 h]
      · simp [dirAt, hl] at h
  | succ n ih =>
      by_cases hl : fs.isDir l = true
      · rw [dirAt_of_isDir hl] at h
        rwa [← Option.some_inj.1 h]
      · simp only [dirAt, if_neg hl] at h
        obtain ⟨t, -, ht⟩ := Option.bind_eq_some_iff.1 h
        obtain ⟨l', -, hl'⟩ := Option.bind_eq_some_iff.1 ht
        exact ih hl'

theorem dir_of_isDir {l : Loc} (hl : fs.isDir l = true) : fs.dir l = some l :=
  dirAt_of_isDir hl _

theorem isDir_of_dir {l m : Loc} (h : fs.dir l = some m) : fs.isDir m = true := isDir_of_dirAt h

theorem lookup_append (dir : Loc → Option Loc) (l : Loc) (cs ds : List Str) :
    lookup dir l (cs ++ ds) = (lookup dir l cs).bind fun l' => lookup dir l' ds := by
  induction cs generalizing l with
  | nil => rfl
  | cons c cs ih =>
      cases hl : dir l with
      | none => simp [lookup, hl]
      | some m => simp [lookup, hl, ih]

theorem walk_cons (l : Loc) (c : Str) (cs : List Str) :
    fs.walk l (c :: cs) = (fs.dir l).bind fun m => fs.walk (enter m c) cs := rfl

theorem walk_cons_of_isDir {l : Loc} (hl : fs.isDir l = true) (c : Str) (cs : List Str) :
    fs.walk l (c :: cs) = fs.walk (enter l c) cs := by
  rw [walk_cons, dir_of_isDir hl, Option.bind_some]

theorem walk_append (l : Loc) (cs ds : List Str) :
    fs.walk l (cs ++ ds) = (fs.walk l cs).bind fun l' => fs.walk l' ds :=
  lookup_append fs.dir l cs ds

/-- The last component is looked up in the directory that the others lead to. -/
theorem walk_snoc {l l' : Loc} {cs : List Str} {c : Str} (h : fs.walk l (cs ++ [c]) = some l') :
    ∃ m, (fs.walk l cs).bind fs.dir = some m ∧ fs.isDir m = true ∧ enter m c = l' := by
  rw [walk_append] at h
  obtain ⟨k, hk, hstep⟩ := Option.bind_eq_some_iff.1 h
  rw [walk_cons] at hstep
  obtain ⟨m, hm, hstep⟩ := Option.bind_eq_some_iff.1 hstep
  refine ⟨m, ?_, isDir_of_dir hm, Option.some_inj.1 hstep⟩
  rw [hk, Option.bind_some, hm]

/-- From where a walk starts only the directory matters. -/
theorem walk_congr {l l' : Loc} (h : fs.dir l = fs.dir l') {cs : List Str} (hcs : cs ≠ []) :
    fs.walk l cs = fs.walk l' cs := by
  obtain ⟨c, cs, rfl⟩ := List.exists_cons_of_ne_nil hcs
  rw [walk_cons, walk_cons, h]

theorem isDir_tail {l : Loc} (h : fs.isDir l = true) : fs.isDir l.tail = true := by
  cases l with
  | nil => exact h
  | cons n l => exact fs.isDir_parent n l h

/-- What is entered from a directory and is none itself is entered by its name. -/
theorem enter_eq_cons {l l' : Loc} {c : Str} (hl : fs.isDir l = true) (h : enter l c = l')
    (hl' : fs.isDir l' = false) : l' = c :: l := by
  subst h
  unfold enter at hl' ⊢
  split_ifs at hl' ⊢
  · rw [hl] at hl'; cases hl'
  · rw [isDir_tail hl] at hl'; cases hl'
  · rfl

/-- Trailing slashes do not matter for the directory that is found. -/
theorem dir_stripSlashes {l m : Loc} {s : Str}
    (h : (fs.walk l (components s)).bind fs.dir = some m) :
    (fs.walk l (components (stripSlashes s))).bind fs.dir = some m := by
  induction s using List.reverseRecOn generalizing m with
  | nil => exact h
  | append_singleton s c ih =>
      rcases eq_or_ne c '/' with rfl | hc
      · rw [stripSlashes_snoc]
        have hcomp : components (s ++ ['/']) = components s ++ [[]] := components_join s []
        rw [hcomp] at h
        obtain ⟨l', hl', hm⟩ := Option.bind_eq_some_iff.1 h
        obtain ⟨k, hk, hdir, rfl⟩ := walk_snoc hl'
        rw [enter_nil, dir_of_isDir hdir] at hm
        rw [← Option.some_inj.1 hm]
        exact ih hk
      · rwa [stripSlashes_snoc_of_ne s hc]

/-- Where a path below another one starts. -/
theorem origin_join {d : Str} (hd : d ≠ []) (t : Str) : fs.origin (join d t) = fs.origin d := by
  cases d with
  | nil => exact absurd rfl hd
  | cons c d => rfl

/-- **A path below another one is looked up from there.** -/
theorem resolve_join {d : Str} (hd : d ≠ []) (t : Str) :
    fs.resolve (join d t) = (fs.resolve d).bind fun l => fs.walk l (components t) := by
  have hne : join d t ≠ [] := by simp [join]
  rw [resolve, resolve, if_neg hne, if_neg hd, origin_join hd, components_join, walk_append]

/-- The working directory and the root have names. -/
theorem resolve_dot : fs.resolve ['.'] = some fs.cwd := by
  simp [resolve, origin, IsAbsolute, components_dot, walk, lookup, dir_of_isDir fs.isDir_cwd]

theorem resolve_rootOf (s : Str) : fs.resolve (rootOf s) = some [] := by
  have hroot := dir_of_isDir fs.isDir_root
  rcases rootOf_eq s with h | h
  · simp [h, resolve, origin, IsAbsolute, components_slashes, walk, lookup, hroot]
  · simp [h, resolve, origin, IsAbsolute, components_slash, walk, lookup, hroot]

/-- A path that names something that is no directory does not end in a slash. -/
theorem stripSlashes_of_resolve {q : Str} {l : Loc} (h : fs.resolve q = some l)
    (hl : fs.isDir l = false) : stripSlashes q = q := by
  rcases List.eq_nil_or_concat' q with rfl | ⟨s, c, rfl⟩
  · rfl
  rcases eq_or_ne c '/' with rfl | hc
  · have hdir : fs.isDir l = true := by
      have hcomp : components (s ++ ['/']) = components s ++ [[]] := components_join s []
      rw [resolve, if_neg (by simp), hcomp] at h
      obtain ⟨m, -, hm, rfl⟩ := walk_snoc h
      rwa [enter_nil]
    rw [hdir] at hl
    cases hl
  · exact stripSlashes_snoc_of_ne s hc

/-- Removing trailing slashes does not change where a path starts. -/
theorem origin_stripSlashes {s : Str} (hs : stripSlashes s ≠ []) :
    fs.origin (stripSlashes s) = fs.origin s := by
  obtain ⟨r, hr⟩ : stripSlashes s <+: s := List.rdropWhile_prefix _ s
  have hhead : s.head? = (stripSlashes s).head? := by
    conv_lhs => rw [← hr]
    exact List.head?_append_of_ne_nil _ hs
  have habs : IsAbsolute (stripSlashes s) ↔ IsAbsolute s := by rw [IsAbsolute, IsAbsolute, hhead]
  simp only [origin, habs]

/-- A path that starts with slashes only starts at the root. -/
theorem origin_of_stripSlashes_eq_nil {d : Str} (hd : stripSlashes d = []) (n : Str) :
    fs.origin (join d n) = [] := by
  have hall : ∀ c ∈ d, c = '/' := by
    simpa [stripSlashes] using hd
  have habs : IsAbsolute (join d n) := by
    cases d with
    | nil => rfl
    | cons c d => simp [join, IsAbsolute, hall c (by simp)]
  exact if_pos habs

/-- **`dirname` leads to the directory of a file**: of anything that is no directory itself. -/
theorem dir_dirname {q : Str} {l : Loc} (h : fs.resolve q = some l) (hl : fs.isDir l = false) :
    (fs.resolve (dirname q)).bind fs.dir = some l.tail := by
  have hq : q ≠ [] := fun hq => by simp [hq, resolve] at h
  rw [resolve, if_neg hq] at h
  rcases eq_name_or_join hq (stripSlashes_of_resolve (by rwa [resolve, if_neg hq]) hl) with
    hn | ⟨d, n, hn, rfl⟩
  · -- a name in the working directory
    have horigin : fs.origin q = fs.cwd := if_neg fun habs => hn.2 (List.mem_of_mem_head? habs)
    rw [horigin, components_of_not_mem hn.2, walk_cons_of_isDir fs.isDir_cwd] at h
    have hcons := enter_eq_cons fs.isDir_cwd (Option.some_inj.1 h) hl
    rw [hn.dirname, resolve_dot, Option.bind_some, dir_of_isDir fs.isDir_cwd, hcons]
    rfl
  · -- a name below something
    rw [components_join, components_of_not_mem hn.2] at h
    obtain ⟨m, hm, hdir, hstep⟩ := walk_snoc h
    have hm' := dir_stripSlashes hm
    rw [hn.dirname_join, enter_eq_cons hdir hstep hl, List.tail_cons]
    split_ifs with hd
    · rw [origin_of_stripSlashes_eq_nil hd, hd, components_nil, walk_cons_of_isDir fs.isDir_root,
        enter_nil] at hm'
      rw [resolve_rootOf]
      exact hm'
    · have hd' : d ≠ [] := fun h => hd (by rw [h]; rfl)
      rw [resolve, if_neg hd, origin_stripSlashes hd, ← origin_join hd' n]
      exact hm'

theorem components_ne_nil (s : Str) : components s ≠ [] := List.splitOn_ne_nil '/' s

/-- A path below another one is looked up in the directory that the other one leads to. -/
theorem resolve_join_of_dir {d t : Str} {m : Loc} (hd : d ≠ [])
    (h : (fs.resolve d).bind fs.dir = some m) :
    fs.resolve (join d t) = fs.walk m (components t) := by
  obtain ⟨l, hl, hm⟩ := Option.bind_eq_some_iff.1 h
  have hdir : fs.dir l = fs.dir m := hm.trans (dir_of_isDir (isDir_of_dir hm)).symm
  rw [resolve_join hd, hl, Option.bind_some, walk_congr hdir (components_ne_nil t)]

/-- **A target below the directory of its link is looked up from there.** -/
theorem resolve_join_dirname {q t : Str} {l : Loc} (h : fs.resolve q = some l)
    (hl : fs.isDir l = false) :
    fs.resolve (join (dirname q) t) = fs.walk l.tail (components t) :=
  resolve_join_of_dir (dirname_ne_nil q) (dir_dirname h hl)

/-! ### Finitely many links -/

variable (fs) in
/-- There are finitely many links. -/
def FiniteLinks : Prop := {l | fs.link l ≠ none}.Finite

theorem finiteLinks_ofLists {dirs : List Loc} {links : List (Loc × Str)} {cwd : Loc}
    (h : Valid dirs links cwd) : (ofLists dirs links cwd h).FiniteLinks := by
  refine ((links.map Prod.fst).finite_toSet).subset fun l hl => ?_
  obtain ⟨t, ht⟩ := Option.ne_none_iff_exists'.1 hl
  exact List.mem_map.2 ⟨(l, t), mem_of_lookup ht, rfl⟩

/-! ### The limit of a lookup -/

theorem lookup_mono {dir dir' : Loc → Option Loc}
    (hdir : ∀ l m, dir l = some m → dir' l = some m) {l l' : Loc} {cs : List Str}
    (h : lookup dir l cs = some l') : lookup dir' l cs = some l' := by
  induction cs generalizing l with
  | nil => exact h
  | cons c cs ih =>
      obtain ⟨m, hm, hrest⟩ := Option.bind_eq_some_iff.1 h
      exact Option.bind_eq_some_iff.2 ⟨m, hdir l m hm, ih hrest⟩

/-- A link at a place that is no directory. -/
theorem dirAt_succ {l : Loc} (hl : ¬ fs.isDir l = true) (n : ℕ) :
    fs.dirAt (n + 1) l = (fs.link l).bind fun t =>
      (lookup (fs.dirAt n) (source l t) (components t)).bind (fs.dirAt n) := by
  simp only [dirAt, if_neg hl]

/-- What is found with a limit is found with a greater one. -/
theorem dirAt_mono_succ (n : ℕ) {l m : Loc} (h : fs.dirAt n l = some m) :
    fs.dirAt (n + 1) l = some m := by
  induction n generalizing l m with
  | zero =>
      by_cases hl : fs.isDir l = true
      · rwa [dirAt_of_isDir hl] at h ⊢
      · simp [dirAt, hl] at h
  | succ n ih =>
      by_cases hl : fs.isDir l = true
      · rwa [dirAt_of_isDir hl] at h ⊢
      · rw [dirAt_succ hl] at h ⊢
        obtain ⟨t, ht, h⟩ := Option.bind_eq_some_iff.1 h
        obtain ⟨l', hl', h⟩ := Option.bind_eq_some_iff.1 h
        have hlookup := lookup_mono (fun _ _ => ih) hl'
        rw [ht, Option.bind_some, hlookup, Option.bind_some, ih h]

/-- A limit that makes no difference to the next one makes none to any greater one. -/
theorem dirAt_eq_of_succ_eq {n : ℕ} (h : fs.dirAt (n + 1) = fs.dirAt n) {m : ℕ} (hm : n ≤ m) :
    fs.dirAt m = fs.dirAt n := by
  induction m, hm using Nat.le_induction with
  | base => rfl
  | succ m _ ih =>
      rw [← h]
      funext l
      by_cases hl : fs.isDir l = true
      · rw [dirAt_of_isDir hl, dirAt_of_isDir hl]
      · rw [dirAt_succ hl, dirAt_succ hl, ih]

/-- As long as the limit makes a difference, more and more links lead to directories. -/
theorem exists_finset_of_ne (hfin : fs.FiniteLinks) (n : ℕ)
    (h : ∀ k < n, fs.dirAt (k + 1) ≠ fs.dirAt k) :
    ∃ found : Finset Loc, found ⊆ hfin.toFinset ∧ n ≤ found.card ∧
      ∀ l ∈ found, fs.dirAt n l ≠ none := by
  induction n with
  | zero => exact ⟨∅, by simp, le_rfl, by simp⟩
  | succ n ih =>
      obtain ⟨found, hsub, hcard, hfound⟩ := ih fun k hk => h k (Nat.lt_succ_of_lt hk)
      obtain ⟨l, hl⟩ := Function.ne_iff.1 (h n (Nat.lt_succ_self n))
      have hnone : fs.dirAt n l = none := by
        cases hn : fs.dirAt n l with
        | none => rfl
        | some m => exact absurd (by rw [dirAt_mono_succ n hn, hn]) hl
      rw [hnone] at hl
      have hlink : fs.link l ≠ none := by
        intro hlink
        by_cases hdir : fs.isDir l = true
        · rw [dirAt_of_isDir hdir] at hnone
          cases hnone
        · exact hl (by rw [dirAt_succ hdir, hlink, Option.bind_none])
      refine ⟨insert l found, ?_, ?_, ?_⟩
      · exact Finset.insert_subset ((Set.Finite.mem_toFinset _).2 hlink) hsub
      · rw [Finset.card_insert_of_notMem fun hmem => hfound l hmem hnone]
        exact Nat.succ_le_succ hcard
      · intro l' hl'
        rcases Finset.mem_insert.1 hl' with rfl | hl'
        · exact hl
        · obtain ⟨m, hm⟩ := Option.ne_none_iff_exists'.1 (hfound l' hl')
          rw [dirAt_mono_succ n hm]
          exact Option.some_ne_none m

/-- **A limit that is no less than the number of links is as good as none.** -/
theorem dirAt_eq_of_card_le (hfin : fs.FiniteLinks) {n m : ℕ} (hn : hfin.toFinset.card ≤ n)
    (hm : n ≤ m) : fs.dirAt m = fs.dirAt n := by
  -- otherwise each of the limits up to `n` makes a difference, and there are more links than links
  by_contra hne
  have hall : ∀ k < n + 1, fs.dirAt (k + 1) ≠ fs.dirAt k := by
    intro k hk heq
    have hkn := dirAt_eq_of_succ_eq heq (Nat.le_of_lt_succ hk)
    have hkm := dirAt_eq_of_succ_eq heq ((Nat.le_of_lt_succ hk).trans hm)
    exact hne (hkm.trans hkn.symm)
  obtain ⟨found, hsub, hcard, -⟩ := exists_finset_of_ne hfin (n + 1) hall
  have hle := Finset.card_le_card hsub
  omega

end FileSys
