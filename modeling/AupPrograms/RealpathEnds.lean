/-
**When a call returns** (`assignment_2/realpath.c`).

`myrealpath` follows links without counting them and without remembering where it has been.  The
next path is the target, or the target below a directory, and the path can grow on the way: the
directory of the current link is put before a target with two dots in it, as long as it has no dot
itself.  Such a target is looked up from the directory in which its link is.  So what comes next
depends on the link only, and on whether the path to it has a dot in its directory; and a loop that
does not end comes back to a link where it has been.

Main definitions:

* `Realpath.At`, `Realpath.Names` — a link as the loop comes to it, by a path;
* `Realpath.LinkStep` — from one link to the next one;
* `Realpath.starts` — the paths from which a call starts its loop.

Main results:

* `Realpath.linkStep_iff` — a hop of the loop from a path is a step from the link it names;
* `Realpath.call_ends_iff` — **a call returns exactly when no links, from one of the paths it starts
  from, come back to a link**;
* `Realpath.call_never_ends` — a link to itself is followed for ever.
-/

import AupPrograms.Descent
import AupPrograms.RealpathChain

set_option relaxedAutoImplicit false
set_option autoImplicit false

namespace Realpath

open PathName

variable {fs : FileSys} {base : Str}

/-! ### From link to link -/

/-- A link as the loop comes to it: where it is, and whether `dirname` of the path has a dot. -/
structure At where
  loc : Loc
  dotted : Bool
  deriving DecidableEq

/-- `strstr(dirname(q), ".") != NULL` -/
def dotted (q : Str) : Bool := contains (dirname q) ['.']

theorem dotted_iff {q : Str} : dotted q = true ↔ '.' ∈ dirname q := by
  rw [dotted, contains, decide_eq_true_iff, List.singleton_infix_iff]

/-- The path names the link. -/
structure Names (fs : FileSys) (q : Str) (x : At) : Prop where
  resolve : fs.resolve q = some x.loc
  link : fs.link x.loc ≠ none
  dotted : dotted q = x.dotted

/-- The directory that a loop started from `base` puts before a target without two dots. -/
def prefixOf (base : Str) : Option Str := if dotted base then none else some (dirname base)

/-- The target with that directory before it. -/
def below (pre : Option Str) (t : Str) : Str := pre.elim t fun d => join d t

/-- **The loop comes from the link `x` to the link `y`.**  A target without two dots is read below
`pre`, if there is such a directory, or else from the working directory.  One with two dots is read
from the working directory too if there is a dot in the directory of the path to `x`, and else from
the directory of `x`. -/
def LinkStep (fs : FileSys) (pre : Option Str) (y x : At) : Prop :=
  ∃ t, fs.link x.loc = some t ∧
    if contains t ['.', '.'] then
      if x.dotted then Names fs t y
      else fs.walk x.loc.tail (components t) = some y.loc ∧ fs.link y.loc ≠ none ∧
        y.dotted = decide ('.' ∈ front t)
    else Names fs (below pre t) y

theorem Names.unique {q : Str} {x y : At} (hx : Names fs q x) (hy : Names fs q y) : x = y := by
  cases x
  cases y
  obtain rfl := Option.some_inj.1 (hx.resolve.symm.trans hy.resolve)
  obtain rfl := hx.dotted.symm.trans hy.dotted
  rfl

/-- A path names a link exactly when it names one in this sense. -/
theorem exists_names_iff {q : Str} : (∃ x, Names fs q x) ↔ IsLink fs q := by
  constructor
  · rintro ⟨x, hx⟩
    rw [IsLink, FileSys.readlink, hx.resolve]
    exact hx.link
  · intro h
    obtain ⟨t, ht⟩ := Option.ne_none_iff_exists'.1 h
    obtain ⟨l, hl, htl, -⟩ := exists_resolve ht
    exact ⟨⟨l, dotted q⟩, hl, by simp [htl], rfl⟩

theorem Names.readlink {q : Str} {x : At} (h : Names fs q x) : fs.readlink q = fs.link x.loc := by
  rw [FileSys.readlink, h.resolve, Option.bind_some]

theorem Names.isDir {q : Str} {x : At} (h : Names fs q x) : fs.isDir x.loc = false := by
  obtain ⟨t, ht⟩ := Option.ne_none_iff_exists'.1 h.link
  exact fs.not_isDir_of_link _ t ht

/-- **A target below the directory of its link**: the link that it names from there, reached through
a dot if there is one in the directory of the target. -/
theorem names_join_dirname_iff {q t : Str} {x y : At} (hx : Names fs q x)
    (ht : fs.link x.loc = some t) (hdot : x.dotted = false) :
    Names fs (join (dirname q) t) y ↔
      fs.walk x.loc.tail (components t) = some y.loc ∧ fs.link y.loc ≠ none ∧
        y.dotted = decide ('.' ∈ front t) := by
  have hres := FileSys.resolve_join_dirname (t := t) hx.resolve hx.isDir
  have hdirname : '.' ∉ dirname q := fun hmem => by
    rw [← dotted_iff, hx.dotted, hdot] at hmem
    cases hmem
  have hne : t ≠ [] := fs.target_ne_nil x.loc t ht
  have hdots : ∀ y : At, fs.resolve (join (dirname q) t) = some y.loc → fs.link y.loc ≠ none →
      dotted (join (dirname q) t) = decide ('.' ∈ front t) := fun y hy hlink => by
    obtain ⟨t', ht'⟩ := Option.ne_none_iff_exists'.1 hlink
    have hstrip := FileSys.stripSlashes_of_resolve hy (fs.not_isDir_of_link _ t' ht')
    rw [Bool.eq_iff_iff, dotted_iff, decide_eq_true_iff,
      dot_mem_dirname_join hne (stripSlashes_of_join hne hstrip), or_iff_right hdirname]
  constructor
  · intro h
    exact ⟨hres ▸ h.resolve, h.link, h.dotted.symm.trans (hdots y h.resolve h.link)⟩
  · rintro ⟨hwalk, hlink, hdotted⟩
    exact ⟨hres.trans hwalk, hlink, (hdots y (hres.trans hwalk) hlink).trans hdotted.symm⟩

/-- **A hop of the loop from a path is a step from the link it names.** -/
theorem linkStep_iff {q : Str} {x y : At} (hx : Names fs q x) :
    LinkStep fs (prefixOf base) y x ↔ ∃ q', HopRel fs base q' q ∧ Names fs q' y := by
  have hnames : ∀ t, fs.link x.loc = some t → (Names fs (hop base q t) y ↔
      if contains t ['.', '.'] then
        if x.dotted then Names fs t y
        else fs.walk x.loc.tail (components t) = some y.loc ∧ fs.link y.loc ≠ none ∧
          y.dotted = decide ('.' ∈ front t)
      else Names fs (below (prefixOf base) t) y) := fun t ht => by
    have hcur : contains (dirname q) ['.'] = x.dotted := hx.dotted
    rw [hop, hcur]
    split_ifs with hdots hdot hbase
    · rfl
    · exact names_join_dirname_iff hx ht (by simpa using hdot)
    · have hnone : prefixOf base = none := if_pos hbase
      rw [hnone]
      rfl
    · have hsome : prefixOf base = some (dirname base) := if_neg hbase
      rw [hsome]
      rfl
  constructor
  · rintro ⟨t, ht, hstep⟩
    exact ⟨_, ⟨t, hx.readlink.trans ht, rfl⟩, (hnames t ht).2 hstep⟩
  · rintro ⟨_, ⟨t, ht, rfl⟩, hy⟩
    rw [hx.readlink] at ht
    exact ⟨t, ht, (hnames t ht).1 hy⟩

/-- **The loop ends exactly when the steps from its first link do.** -/
theorem exists_leads_iff_acc_linkStep {q : Str} {x : At} (hx : Names fs q x) :
    (∃ e, Leads fs base q e) ↔ Acc (LinkStep fs (prefixOf base)) x := by
  rw [exists_leads_iff_acc]
  constructor
  · intro h
    induction h generalizing x with
    | intro q _ ih =>
        refine Acc.intro x fun y hy => ?_
        obtain ⟨q', hhop, hq'⟩ := (linkStep_iff hx).1 hy
        exact ih q' hhop hq'
  · intro h
    induction h generalizing q with
    | intro x _ ih =>
        refine Acc.intro q fun q' hhop => ?_
        by_cases hlink : IsLink fs q'
        · obtain ⟨y, hy⟩ := exists_names_iff.2 hlink
          exact ih y ((linkStep_iff hx).2 ⟨q', hhop, hy⟩) hy
        · -- the loop stops there
          refine Acc.intro q' fun q'' hnext => ?_
          obtain ⟨t, ht, -⟩ := hnext
          exact absurd (by simp [IsLink, ht]) hlink

/-- There is one next link at most. -/
theorem linkStep_det {pre : Option Str} (x y z : At) (hy : LinkStep fs pre y x)
    (hz : LinkStep fs pre z x) : y = z := by
  obtain ⟨t, ht, hy⟩ := hy
  obtain ⟨t', ht', hz⟩ := hz
  obtain rfl := Option.some_inj.1 (ht.symm.trans ht')
  split_ifs at hy hz with hdots hdot
  · exact hy.unique hz
  · obtain ⟨hy₁, -, hy₂⟩ := hy
    obtain ⟨hz₁, -, hz₂⟩ := hz
    cases y
    cases z
    obtain rfl := Option.some_inj.1 (hy₁.symm.trans hz₁)
    obtain rfl := hy₂.trans hz₂.symm
    rfl
  · exact hy.unique hz

/-- What is stepped to is a link. -/
theorem LinkStep.link_ne_none {pre : Option Str} {x y : At} (h : LinkStep fs pre y x) :
    fs.link y.loc ≠ none := by
  obtain ⟨t, -, h⟩ := h
  split_ifs at h
  · exact h.link
  · exact h.2.1
  · exact h.link

/-- From a link, the steps come to finitely many. -/
theorem finite_reached (hfin : fs.FiniteLinks) (pre : Option Str) (x : At) :
    {y | Relation.ReflTransGen (LinkStep fs pre) y x}.Finite := by
  have hall : {y : At | fs.link y.loc ≠ none}.Finite := by
    have himage := fun b : Bool => hfin.image fun l => (⟨l, b⟩ : At)
    refine ((himage true).union (himage false)).subset ?_
    rintro ⟨l, b⟩ hl
    cases b with
    | true => exact Or.inl ⟨l, hl, rfl⟩
    | false => exact Or.inr ⟨l, hl, rfl⟩
  refine (hall.insert x).subset fun y hy => ?_
  rcases Relation.ReflTransGen.cases_head hy with rfl | ⟨z, hz, -⟩
  · exact Set.mem_insert _ _
  · exact Set.mem_insert_of_mem _ hz.link_ne_none

/-! ### Calls -/

/-- The paths from which a call starts its loop: none if it gives up before. -/
def starts (env : Env) (path : Option Str) : List Str :=
  if env.pathMax = -1 then []
  else
    match path with
    | none => (env.listing.getD []).map Subtype.val
    | some p => [p]

/-- A call returns exactly when the loop ends from each of these paths. -/
theorem exists_calls_iff {env : Env} {path : Option Str} {g : Globals} :
    (∃ o, Calls env path g o) ↔ ∀ p ∈ starts env path, ∃ e, Leads env.fs p p e := by
  by_cases hmax : env.pathMax = -1
  · simp [starts, hmax, calls_failed_iff (Or.inl hmax)]
  · cases path with
    | some p =>
        simp only [starts, if_neg hmax, List.forall_mem_singleton, calls_single_iff hmax]
        exact ⟨fun ⟨_, e, he, _⟩ => ⟨e, he⟩, fun ⟨e, he⟩ => ⟨_, e, he, rfl⟩⟩
    | none =>
        cases hlist : env.listing with
        | none => simp [starts, hlist, calls_failed_iff (Or.inr ⟨rfl, hlist⟩)]
        | some names =>
            have hresults : (∃ o, Calls env none g o) ↔ ∃ rs, Results env.fs names rs := by
              simp only [calls_scan_iff hmax hlist]
              exact ⟨fun ⟨_, rs, hrs, _⟩ => ⟨rs, hrs⟩, fun ⟨rs, hrs⟩ => ⟨_, rs, hrs, rfl⟩⟩
            rw [hresults, exists_results_iff, starts, if_neg hmax, hlist]
            constructor
            · intro h p hp
              obtain ⟨n, hn, rfl⟩ := List.mem_map.1 hp
              by_cases hlink : IsLink env.fs n
              · exact h n (List.mem_filter.2 ⟨hn, by simpa using hlink⟩)
              · exact ⟨n, .stop (not_not.1 hlink)⟩
            · intro h n hn
              exact h n (List.mem_map_of_mem (List.mem_filter.1 hn).1)

/-- **A call returns exactly when the links do not come back to a link**, from the path it is given
or from each entry of the working directory. -/
theorem call_ends_iff {env : Env} (hfin : env.fs.FiniteLinks) (path : Option Str) (g : Globals) :
    (∃ o, Calls env path g o) ↔
      ∀ p ∈ starts env path, ∀ x, Names env.fs p x →
        Descent.Acyclic (LinkStep env.fs (prefixOf p)) x := by
  rw [exists_calls_iff]
  refine forall₂_congr fun p _ => ?_
  constructor
  · intro he x hx
    exact Descent.acyclic_of_acc ((exists_leads_iff_acc_linkStep hx).1 he)
  · intro h
    by_cases hlink : IsLink env.fs p
    · obtain ⟨x, hx⟩ := exists_names_iff.2 hlink
      exact (exists_leads_iff_acc_linkStep hx).2
        ((Descent.acc_iff_acyclic (finite_reached hfin _ x)).2 (h x hx))
    · exact ⟨p, .stop (not_not.1 hlink)⟩

/-- The link `/d/l` to `a/x..`, read below `/d`, where it is a link to `y..`. -/
def deeper : Env where
  fs := .ofLists [[], [['d']], [['a'], ['d']]]
    [([['l'], ['d']], ['a', '/', 'x', '.', '.']),
      ([['x', '.', '.'], ['a'], ['d']], ['y', '.', '.'])] [] (by decide)
  pathMax := 4096
  listing := none
  junk := []

/-- The path grows twice, and the call returns. -/
theorem call_ends_iff_deeper : ∃ o, Calls deeper (some ['/', 'd', '/', 'l']) fresh o := by
  refine (call_ends_iff (FileSys.finiteLinks_ofLists (by decide)) _ _).2 fun p hp x hx => ?_
  obtain rfl := List.mem_singleton.1 hp
  refine Descent.acyclic_of_acc ((exists_leads_iff_acc_linkStep hx).1
    ⟨['/', 'd', '/', 'a', '/', 'y', '.', '.'], ?_⟩)
  have hfirst : hop ['/', 'd', '/', 'l'] ['/', 'd', '/', 'l'] ['a', '/', 'x', '.', '.']
      = ['/', 'd', '/', 'a', '/', 'x', '.', '.'] := by decide
  have hsecond : hop ['/', 'd', '/', 'l'] ['/', 'd', '/', 'a', '/', 'x', '.', '.'] ['y', '.', '.']
      = ['/', 'd', '/', 'a', '/', 'y', '.', '.'] := by decide
  refine .hop (t := ['a', '/', 'x', '.', '.']) (by decide) ?_
  rw [hfirst]
  refine .hop (t := ['y', '.', '.']) (by decide) ?_
  rw [hsecond]
  exact .stop (by decide)

/-- The link `s` to itself, alone in the working directory. -/
def selfLink : Env where
  fs := .ofLists [[]] [([['s']], ['s'])] [] (by decide)
  pathMax := 4096
  listing := some [⟨['s'], by decide⟩]
  junk := []

/-- **A link to itself is followed for ever**, whether it is given or found in the directory. -/
theorem call_never_ends : selfLink.fs.FiniteLinks ∧
    (∀ g o, ¬ Calls selfLink (some ['s']) g o) ∧ ∀ g o, ¬ Calls selfLink none g o := by
  have hback : HopRel selfLink.fs ['s'] ['s'] ['s'] := ⟨['s'], by decide, by decide⟩
  have hnever : ¬ ∃ e, Leads selfLink.fs ['s'] ['s'] e := fun he =>
    Descent.not_transGen_of_acc (exists_leads_iff_acc.1 he) (.single hback)
  refine ⟨FileSys.finiteLinks_ofLists (by decide), fun g o ho => ?_, fun g o ho => ?_⟩
  · exact hnever (exists_calls_iff.1 ⟨o, ho⟩ _ List.mem_cons_self)
  · exact hnever (exists_calls_iff.1 ⟨o, ho⟩ _ List.mem_cons_self)

end Realpath
