/-
**Following a chain of symbolic links** (`assignment_2/realpath.c`).

The system reads a relative target from the directory of its link.  `myrealpath` reads it from the
working directory, from the directory of the link, or from the directory of the path it was given,
depending on the dots in these strings, and puts a directory even before an absolute target.  As
long as this makes no difference to the next file it follows the system's chain.

Main definitions:

* `Realpath.succ`, `Realpath.Chain` — the next path of a chain, and the chains that end;
* `Realpath.Visits` — the paths the loop comes to;
* `Realpath.SoundHop` — a hop of the loop is as good as the system's.

Main results:

* `Realpath.soundHop_of_base` — a hop from the right directory is sound;
* `Realpath.alone_of_chain` — **a call returns the name of the end of the chain if all its hops are
  sound**;
* `Realpath.alone_of_names` — links to names in one directory are followed.
-/

import AupPrograms.Realpath

set_option relaxedAutoImplicit false
set_option autoImplicit false

namespace Realpath

open PathName

/-! ### Chains -/

/-- The path after a link at `q` with target `t`, as the system reads it. -/
def succ (q t : Str) : Str := if IsAbsolute t then t else join (dirname q) t

/-- **A chain of one or more links that starts at a path and ends at one that is no link.** -/
inductive Chain (fs : FileSys) : Str → Str → Prop
  | last {p t : Str} (h : fs.readlink p = some t) (hend : ¬ IsLink fs (succ p t)) :
      Chain fs p (succ p t)
  | cons {p t e : Str} (h : fs.readlink p = some t) (hc : Chain fs (succ p t) e) : Chain fs p e

/-- The paths the loop comes to. -/
inductive Visits (fs : FileSys) (path : Str) : Str → Prop
  | start : Visits fs path path
  | hop {q t : Str} (h : Visits fs path q) (ht : fs.readlink q = some t) :
      Visits fs path (hop path q t)

/-- **A hop of the loop is as good as the system's**: it leads to the same file, or neither leads to
a link; and the two paths end in the same name. -/
structure SoundHop (fs : FileSys) (path q t : Str) : Prop where
  file : fs.resolve (hop path q t) = fs.resolve (succ q t) ∨
    ¬ IsLink fs (hop path q t) ∧ ¬ IsLink fs (succ q t)
  name : basename (hop path q t) = basename (succ q t)

variable {fs : FileSys}

theorem Chain.isLink {p e : Str} (h : Chain fs p e) : IsLink fs p := by
  cases h with
  | last h _ | cons h _ => simp [IsLink, h]

/-- Whether a path names a link depends on the file only. -/
theorem isLink_congr {p q : Str} (h : fs.resolve p = fs.resolve q) : IsLink fs p ↔ IsLink fs q := by
  rw [IsLink, IsLink, FileSys.readlink, FileSys.readlink, h]

/-- A path that names a link names a file that is no directory. -/
theorem exists_resolve {q t : Str} (h : fs.readlink q = some t) :
    ∃ l, fs.resolve q = some l ∧ fs.link l = some t ∧ fs.isDir l = false := by
  obtain ⟨l, hl, ht⟩ := Option.bind_eq_some_iff.1 h
  exact ⟨l, hl, ht, fs.not_isDir_of_link l t ht⟩

/-- **The next path names the file the system follows the target to.** -/
theorem resolve_succ {q t : Str} {l : Loc} (hl : fs.resolve q = some l) (ht : fs.link l = some t) :
    fs.resolve (succ q t) = fs.follow l t := by
  unfold succ FileSys.follow FileSys.source
  split_ifs with habs
  · rw [FileSys.resolve, if_neg (fs.target_ne_nil l t ht), FileSys.origin, if_pos habs]
  · exact FileSys.resolve_join_dirname hl (fs.not_isDir_of_link l t ht)

/-- Two paths to one link have the same next file. -/
theorem resolve_succ_congr {p q t : Str} (h : fs.resolve p = fs.resolve q)
    (ht : fs.readlink q = some t) : fs.resolve (succ p t) = fs.resolve (succ q t) := by
  obtain ⟨l, hl, htl, -⟩ := exists_resolve ht
  rw [resolve_succ (h.trans hl) htl, resolve_succ hl htl]

/-- A relative target has a name in it. -/
theorem stripSlashes_ne_nil {t : Str} (hne : t ≠ []) (hrel : ¬ IsAbsolute t) :
    stripSlashes t ≠ [] := by
  intro h
  have hall : ∀ c ∈ t, c = '/' := by simpa [stripSlashes] using h
  cases t with
  | nil => exact hne rfl
  | cons c t => exact hrel (by simp [IsAbsolute, hall c (by simp)])

/-- The name of the next path is that of the target. -/
theorem basename_succ {q t : Str} (ht : t ≠ []) : basename (succ q t) = basename t := by
  unfold succ
  split_ifs with habs
  · rfl
  · exact basename_join (stripSlashes_ne_nil ht habs) _

/-! ### Sound hops -/

/-- The directory that the loop puts before a target, if it does. -/
def chosen (base cur target : Str) : Option Str :=
  if contains target ['.', '.'] then
    if contains (dirname cur) ['.'] then none else some (dirname cur)
  else if contains (dirname base) ['.'] then none
  else some (dirname base)

theorem hop_of_none {base cur target : Str} (h : chosen base cur target = none) :
    hop base cur target = target := by
  unfold chosen at h
  unfold hop
  split_ifs at h ⊢ <;> rfl

theorem hop_of_some {base cur target d : Str} (h : chosen base cur target = some d) :
    hop base cur target = join d target ∧ d ≠ [] := by
  unfold chosen at h
  unfold hop
  split_ifs at h ⊢ <;> cases h <;> exact ⟨rfl, dirname_ne_nil _⟩

/-- **A hop from the right directory is sound**: nothing is put before an absolute target or before
the target of a link in the working directory, or else the directory of the link is. -/
theorem soundHop_of_base {path q t : Str} {l : Loc} (hl : fs.resolve q = some l)
    (ht : fs.link l = some t)
    (hnone : chosen path q t = none → IsAbsolute t ∨ l.tail = fs.cwd)
    (hsome : ∀ d, chosen path q t = some d →
      ¬ IsAbsolute t ∧ (fs.resolve d).bind fs.dir = some l.tail) :
    SoundHop fs path q t := by
  have hne := fs.target_ne_nil l t ht
  have hsucc := resolve_succ hl ht
  cases hchosen : chosen path q t with
  | none =>
      have hhop := hop_of_none hchosen
      refine ⟨Or.inl ?_, by rw [hhop, basename_succ hne]⟩
      rw [hhop, hsucc, FileSys.follow, FileSys.source, FileSys.resolve, if_neg hne, FileSys.origin]
      split_ifs with habs
      · rfl
      · rw [(hnone hchosen).resolve_left habs]
  | some d =>
      obtain ⟨hhop, hd⟩ := hop_of_some hchosen
      obtain ⟨hrel, hdir⟩ := hsome d hchosen
      refine ⟨Or.inl ?_, ?_⟩
      · rw [hhop, hsucc, FileSys.follow, FileSys.source, if_neg hrel,
          FileSys.resolve_join_of_dir hd hdir]
      · rw [hhop, basename_succ hne, basename_join (stripSlashes_ne_nil hne hrel)]

/-- Nothing is put before a target that is read at a name, in a loop started from a name. -/
theorem chosen_name {n q : Str} (hn : IsName n) (hq : IsName q) (t : Str) :
    chosen n q t = none := by
  have hdot : contains ['.'] ['.'] = true := by decide
  simp [chosen, hn.dirname, hq.dirname, hdot]

/-- Where all targets are names, every hop from a name is sound. -/
theorem soundHop_of_names {n q t : Str} (hn : IsName n)
    (hnames : ∀ l t, fs.link l = some t → IsName t) (hv : Visits fs n q)
    (ht : fs.readlink q = some t) : SoundHop fs n q t := by
  have hname : ∀ q, Visits fs n q → IsName q := by
    intro q hv
    induction hv with
    | start => exact hn
    | hop _ ht ih =>
        obtain ⟨l, -, htl, -⟩ := exists_resolve ht
        rw [hop_of_none (chosen_name hn ih _)]
        exact hnames l _ htl
  have hq := hname q hv
  obtain ⟨l, hl, htl, hdir⟩ := exists_resolve ht
  have hcwd : l.tail = fs.cwd := by
    have hdirname := FileSys.dir_dirname hl hdir
    rw [hq.dirname, FileSys.resolve_dot, Option.bind_some,
      FileSys.dir_of_isDir fs.isDir_cwd] at hdirname
    exact (Option.some_inj.1 hdirname).symm
  have hnone := chosen_name hn hq t
  exact soundHop_of_base hl htl (fun _ => Or.inr hcwd) fun d hd => by rw [hnone] at hd; cases hd

/-! ### The loop along a chain -/

/-- From a path to the file that the chain has come to, sound hops lead to the end of the chain. -/
theorem leads_of_chain {path p e : Str} (hc : Chain fs p e)
    (hs : ∀ q t, Visits fs path q → fs.readlink q = some t → SoundHop fs path q t) :
    ∀ q, Visits fs path q → fs.resolve q = fs.resolve p →
      ∃ e', Leads fs path q e' ∧ basename e' = basename e := by
  induction hc with
  | @last p t h hend =>
      -- the hop may lead elsewhere than the chain, but to no link either
      intro q hv hq
      have ht : fs.readlink q = some t := by rw [FileSys.readlink, hq]; exact h
      have hsucc := resolve_succ_congr hq h
      obtain ⟨hfile, hname⟩ := hs q t hv ht
      have hstop : ¬ IsLink fs (hop path q t) := by
        rcases hfile with hsame | ⟨hnot, -⟩
        · rwa [isLink_congr (hsame.trans hsucc)]
        · exact hnot
      have hne : t ≠ [] := by
        obtain ⟨l, -, htl, -⟩ := exists_resolve h
        exact fs.target_ne_nil l t htl
      refine ⟨_, .hop ht (.stop (not_not.1 hstop)), ?_⟩
      rw [hname, basename_succ hne, basename_succ hne]
  | @cons p t e h hc ih =>
      -- the chain goes on with a link, so the hop leads to the same file
      intro q hv hq
      have ht : fs.readlink q = some t := by rw [FileSys.readlink, hq]; exact h
      have hsucc := resolve_succ_congr hq h
      have hsame : fs.resolve (hop path q t) = fs.resolve (succ q t) := by
        rcases (hs q t hv ht).file with hsame | ⟨-, hnot⟩
        · exact hsame
        · rw [isLink_congr hsucc] at hnot
          exact absurd hc.isLink hnot
      obtain ⟨e', he', hname⟩ := ih _ (hv.hop ht) (hsame.trans hsucc)
      exact ⟨e', .hop ht he', hname⟩

/-- The visited paths are where the loop leads from. -/
theorem Visits.leads {path q e : Str} (h : Visits fs path q) (he : Leads fs path q e) :
    Leads fs path path e := by
  induction h with
  | start => exact he
  | hop _ ht ih => exact ih (.hop ht he)

/-- **A dead end decides**: once a hop leads to a path that is no link, the call returns the name of
that path, whatever the chain has been. -/
theorem alone_iff_of_dead_end {env : Env} (hmax : env.pathMax ≠ -1) {path q t r : Str}
    (hlink : IsLink env.fs path) (hv : Visits env.fs path q) (ht : env.fs.readlink q = some t)
    (hdead : ¬ IsLink env.fs (hop path q t)) :
    Alone env path r ↔ r = basename (hop path q t) := by
  have he : Leads env.fs path path (hop path q t) := hv.leads (.hop ht (.stop (not_not.1 hdead)))
  constructor
  · intro h
    obtain ⟨o, ho, hret⟩ := h [] fresh
    obtain ⟨e, he', rfl⟩ := (calls_single_iff (by exact hmax)).1 ho
    rw [singleOutcome, if_pos hlink, he'.unique he] at hret
    exact (Option.some_inj.1 hret).symm
  · rintro rfl
    exact alone_of_resolves hmax ⟨hlink, _, he, rfl⟩

/-- **A call returns the name of the end of the chain, if all its hops are sound.**  Once a hop
comes to a path that is no link, it does so exactly when that path has the name of the end. -/
theorem alone_of_chain {env : Env} (hmax : env.pathMax ≠ -1) {path e : Str}
    (hc : Chain env.fs path e) :
    ((∀ q t, Visits env.fs path q → env.fs.readlink q = some t → SoundHop env.fs path q t) →
        Alone env path (basename e)) ∧
      ∀ q t, Visits env.fs path q → env.fs.readlink q = some t →
        ¬ IsLink env.fs (hop path q t) →
        (Alone env path (basename e) ↔ basename e = basename (hop path q t)) := by
  constructor
  · intro hs
    obtain ⟨e', he', hname⟩ := leads_of_chain hc hs path .start rfl
    exact alone_of_resolves hmax ⟨hc.isLink, e', he', hname.symm⟩
  · intro q t hv ht hdead
    exact alone_iff_of_dead_end hmax hc.isLink hv ht hdead

/-- A working directory with a link `l` to the link `m` to the file `f`. -/
def relay : Env where
  fs := .ofLists [[]] [([['l']], ['m']), ([['m']], ['f'])] [] (by decide)
  pathMax := 4096
  listing := none
  junk := []

theorem chain_relay : Chain relay.fs ['l'] ['.', '/', 'f'] := by
  have hfirst : succ ['l'] ['m'] = ['.', '/', 'm'] := by decide
  have hsecond : succ ['.', '/', 'm'] ['f'] = ['.', '/', 'f'] := by decide
  refine .cons (t := ['m']) (by decide) ?_
  rw [hfirst, ← hsecond]
  exact .last (by decide) (by decide)

/-- The two links are followed to `f`. -/
theorem alone_relay : Alone relay ['l'] ['f'] := by
  have hname : basename ['.', '/', 'f'] = ['f'] := by decide
  have hnames : ∀ l t, relay.fs.link l = some t → IsName t := by
    intro l t hl
    have hmem := FileSys.mem_of_lookup hl
    simp only [List.mem_cons, List.not_mem_nil, or_false, Prod.mk.injEq] at hmem
    rcases hmem with ⟨-, rfl⟩ | ⟨-, rfl⟩ <;> decide
  rw [← hname]
  exact (alone_of_chain (by decide) chain_relay).1 fun q t hv ht =>
    soundHop_of_names (by decide) hnames hv ht

/-- **Links to names in the working directory are followed to the end.** -/
theorem alone_of_names {env : Env} (hmax : env.pathMax ≠ -1) {n : Name} {e : Str}
    (hnames : ∀ l t, env.fs.link l = some t → IsName t) (hc : Chain env.fs n e) :
    Alone env n (basename e) := by
  obtain ⟨e', he', hname⟩ :=
    leads_of_chain hc (fun _ _ => soundHop_of_names n.property hnames) n .start rfl
  exact alone_of_resolves hmax ⟨hc.isLink, e', he', hname.symm⟩

/-- The link `/d/l` to `/e/m`, which is a link to `/f/n`. -/
def detour : Env where
  fs := .ofLists [[], [['d']], [['e']], [['f']]]
    [([['l'], ['d']], ['/', 'e', '/', 'm']), ([['m'], ['e']], ['/', 'f', '/', 'n'])] [] (by decide)
  pathMax := 4096
  listing := none
  junk := []

/-- **The chain from `/d/l` ends at `/f/n`, and the call does not return `n`**: it puts `/d` before
the absolute target `/e/m`, finds no link there, and returns `m`. -/
theorem not_alone_detour :
    Chain detour.fs ['/', 'd', '/', 'l'] ['/', 'f', '/', 'n'] ∧
      ¬ Alone detour ['/', 'd', '/', 'l'] (basename ['/', 'f', '/', 'n']) := by
  have hchain : Chain detour.fs ['/', 'd', '/', 'l'] ['/', 'f', '/', 'n'] := by
    refine .cons (t := ['/', 'e', '/', 'm']) (by decide) ?_
    exact .last (t := ['/', 'f', '/', 'n']) (by decide) (by decide)
  refine ⟨hchain, fun h => ?_⟩
  have hname := (alone_iff_of_dead_end (by decide) hchain.isLink .start
    (t := ['/', 'e', '/', 'm']) (by decide) (by decide)).1 h
  revert hname
  decide

end Realpath
