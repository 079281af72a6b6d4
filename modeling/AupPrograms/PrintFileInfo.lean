/-
**Listing the files of a directory with owner and type** (`assignment_3/print_file_info.c`).

For each entry that `readdir` returns, the program calls `lstat` on its path and `getpwuid` on its
owner, and prints one line, in two parts.  An entry can vanish before the call of `lstat`, which
then fails, and an owner need not have an entry in the password database.  The program stops at the
first entry for which one of the two calls fails, but only a failure of `lstat` is reported in its
exit status.

The calls may answer differently each time they are made.  (`malloc` is taken to return memory.)

Main definitions:

* `PrintFileInfo.Env` — the entries of the directory, and the answers of the calls;
* `PrintFileInfo.main` — the program: its exit status and what it prints;
* `PrintFileInfo.fileType` — the type of a file, by its mode;
* `PrintFileInfo.lines` — the lines of a complete listing, if there is one;
* `PrintFileInfo.Ownerless` — the first failing call is one of `getpwuid`.

Main results:

* `PrintFileInfo.typeName_eq` — each type is printed with its name;
* `PrintFileInfo.loop_of_lines`, `PrintFileInfo.loop_append` — what is printed up to a failure;
* `PrintFileInfo.complete_iff` — **when success means that the listing is complete.**
-/

import AupPrograms.CText

set_option relaxedAutoImplicit false
set_option autoImplicit false

namespace PrintFileInfo

open CText (ascii)

/-! ### Files -/

/-- What `lstat` finds out about a file, as far as it is used. -/
structure Stat where
  st_mode : UInt32
  st_uid : UInt32
  deriving DecidableEq

/-- A value of `errno` after a failure. -/
abbrev Errno := {e : ℤ // e ≠ 0}

/-- The directory, and the answers of the calls.  The number of a call is that of its entry. -/
structure Env where
  opendir : List UInt8 → Except Errno Unit
  /-- The names that `readdir` returns, in its order. -/
  readdir : List (List UInt8)
  lstat : ℕ → List UInt8 → Except Errno Stat
  /-- The name of a user. -/
  getpwuid : ℕ → UInt32 → Option (List UInt8)

def S_IFMT : UInt32 := 0o170000
def S_IFSOCK : UInt32 := 0o140000
def S_IFLNK : UInt32 := 0o120000
def S_IFREG : UInt32 := 0o100000
def S_IFBLK : UInt32 := 0o060000
def S_IFDIR : UInt32 := 0o040000
def S_IFCHR : UInt32 := 0o020000
def S_IFIFO : UInt32 := 0o010000

/-! ### The program -/

/-- The comparisons that set `type`. -/
def typeName (st_mode : UInt32) : String :=
  if st_mode &&& S_IFMT = S_IFREG then "regular"
  else if st_mode &&& S_IFMT = S_IFDIR then "directory"
  else if st_mode &&& S_IFMT = S_IFCHR then "character special"
  else if st_mode &&& S_IFMT = S_IFBLK then "block special"
  else if st_mode &&& S_IFMT = S_IFLNK then "symbolic link"
  else if st_mode &&& S_IFMT = S_IFIFO then "fifo"
  else if st_mode &&& S_IFMT = S_IFSOCK then "socket"
  else "unknown"

/-- `printf("%s : %s : ", input, pwd->pw_name)` -/
def firstPart (input pw_name : List UInt8) : List UInt8 :=
  input ++ ascii " : " ++ pw_name ++ ascii " : "

/-- `printf("%s\n", type)` -/
def secondPart (type : String) : List UInt8 := ascii type ++ ascii "\n"

/-- `printf("%s : %s : %s\n", "file", "owner", "type")` -/
def header : List UInt8 := ascii "file : owner : type\n"

/-- The directory, with a slash behind it. -/
def withSlash (arg : List UInt8) : List UInt8 :=
  if arg.getLast? ≠ some 47 then arg ++ ascii "/" else arg

/-- The loop over the entries from number `n` on: the exit status and what is printed. -/
def loop (E : Env) (dir : List UInt8) : ℕ → List (List UInt8) → ℤ × List UInt8
  | _, [] => (0, [])
  | n, d_name :: rest =>
      let input := dir ++ d_name
      match E.lstat n input with
      | .error e => (e, [])
      | .ok st =>
          match E.getpwuid n st.st_uid with
          -- `return 0`
          | none => (0, [])
          | some pw_name =>
              let line := firstPart input pw_name ++ secondPart (typeName st.st_mode)
              let r := loop E dir (n + 1) rest
              (r.1, line ++ r.2)

/-- The program, called with one argument. -/
def main (E : Env) (arg : List UInt8) : ℤ × List UInt8 :=
  match E.opendir arg with
  | .error e => (e, [])
  | .ok _ =>
      let r := loop E (withSlash arg) 0 E.readdir
      (r.1, header ++ r.2)

/-! ### The type of a file -/

/-- The types of files. -/
inductive FileType
  | regular
  | directory
  | characterSpecial
  | blockSpecial
  | symbolicLink
  | fifo
  | socket
  deriving DecidableEq

/-- How a type is written in a mode. -/
def FileType.bits : FileType → UInt32
  | .regular => S_IFREG
  | .directory => S_IFDIR
  | .characterSpecial => S_IFCHR
  | .blockSpecial => S_IFBLK
  | .symbolicLink => S_IFLNK
  | .fifo => S_IFIFO
  | .socket => S_IFSOCK

/-- How a type is called. -/
def FileType.name : FileType → String
  | .regular => "regular"
  | .directory => "directory"
  | .characterSpecial => "character special"
  | .blockSpecial => "block special"
  | .symbolicLink => "symbolic link"
  | .fifo => "fifo"
  | .socket => "socket"

/-- The type of a file, if its mode has one. -/
def fileType (st_mode : UInt32) : Option FileType :=
  [.regular, .directory, .characterSpecial, .blockSpecial, .symbolicLink, .fifo, .socket].find?
    fun t => st_mode &&& S_IFMT = t.bits

/-- A mode has the type whose bits it has. -/
theorem fileType_eq_some_iff {st_mode : UInt32} {t : FileType} :
    fileType st_mode = some t ↔ st_mode &&& S_IFMT = t.bits := by
  constructor
  · intro h
    simpa using List.find?_some h
  · intro h
    rw [fileType, h]
    cases t <;> rfl

/-- **Each type is printed with its name.** -/
theorem typeName_eq (st_mode : UInt32) :
    typeName st_mode = ((fileType st_mode).map FileType.name).getD "unknown" := by
  unfold typeName
  cases htype : fileType st_mode with
  | some t =>
      rw [fileType_eq_some_iff.1 htype]
      cases t <;> rfl
  | none =>
      have hne : ∀ t : FileType, st_mode &&& S_IFMT ≠ t.bits := by
        intro t ht
        rw [fileType_eq_some_iff.2 ht] at htype
        cases htype
      have hreg : st_mode &&& S_IFMT ≠ S_IFREG := hne .regular
      have hdir : st_mode &&& S_IFMT ≠ S_IFDIR := hne .directory
      have hchr : st_mode &&& S_IFMT ≠ S_IFCHR := hne .characterSpecial
      have hblk : st_mode &&& S_IFMT ≠ S_IFBLK := hne .blockSpecial
      have hlnk : st_mode &&& S_IFMT ≠ S_IFLNK := hne .symbolicLink
      have hfifo : st_mode &&& S_IFMT ≠ S_IFIFO := hne .fifo
      have hsock : st_mode &&& S_IFMT ≠ S_IFSOCK := hne .socket
      rw [if_neg hreg, if_neg hdir, if_neg hchr, if_neg hblk, if_neg hlnk, if_neg hfifo,
        if_neg hsock]
      rfl

/-! ### A complete listing -/

/-- The line of an entry: its path, the name of its owner and its type; there is none when one of
them cannot be found out. -/
def line (E : Env) (dir : List UInt8) (n : ℕ) (d_name : List UInt8) : Option (List UInt8) :=
  match E.lstat n (dir ++ d_name) with
  | .error _ => none
  | .ok st =>
      (E.getpwuid n st.st_uid).map fun owner =>
        dir ++ d_name ++ ascii " : " ++ owner ++ ascii " : " ++
          ascii (((fileType st.st_mode).map FileType.name).getD "unknown") ++ ascii "\n"

/-- One line for each entry from number `n` on, in order. -/
def lines (E : Env) (dir : List UInt8) : ℕ → List (List UInt8) → Option (List (List UInt8))
  | _, [] => some []
  | n, d_name :: rest =>
      (line E dir n d_name).bind fun l => (lines E dir (n + 1) rest).map fun ls => l :: ls

section

variable {E : Env} {dir : List UInt8} {n : ℕ}

theorem lines_cons_eq_some_iff {d_name : List UInt8} {rest ls : List (List UInt8)} :
    lines E dir n (d_name :: rest) = some ls ↔
      ∃ l ls', line E dir n d_name = some l ∧ lines E dir (n + 1) rest = some ls' ∧
        ls = l :: ls' := by
  rw [lines, Option.bind_eq_some_iff]
  constructor
  · rintro ⟨l, hl, h⟩
    obtain ⟨ls', hls', rfl⟩ := Option.map_eq_some_iff.1 h
    exact ⟨l, ls', hl, hls', rfl⟩
  · rintro ⟨l, ls', hl, hls', rfl⟩
    exact ⟨l, hl, Option.map_eq_some_iff.2 ⟨ls', hls', rfl⟩⟩

/-- An iteration for an entry that has a line prints it and goes on. -/
theorem loop_of_line {d_name l : List UInt8} (h : line E dir n d_name = some l)
    (rest : List (List UInt8)) :
    loop E dir n (d_name :: rest)
      = ((loop E dir (n + 1) rest).1, l ++ (loop E dir (n + 1) rest).2) := by
  unfold line at h
  cases hst : E.lstat n (dir ++ d_name) with
  | error e =>
      rw [hst] at h
      cases h
  | ok st =>
      rw [hst] at h
      obtain ⟨owner, howner, rfl⟩ := Option.map_eq_some_iff.1 h
      simp only [loop, hst, howner, firstPart, secondPart, typeName_eq, List.append_assoc]

/-- **Where each entry has a line, the loop prints them all** and ends with success. -/
theorem loop_of_lines {names ls : List (List UInt8)} (h : lines E dir n names = some ls) :
    loop E dir n names = (0, ls.flatten) := by
  induction names generalizing n ls with
  | nil =>
      obtain rfl := Option.some_inj.1 h
      rfl
  | cons d_name rest ih =>
      obtain ⟨l, ls', hl, hls', rfl⟩ := lines_cons_eq_some_iff.1 h
      rw [loop_of_line hl, ih hls', List.flatten_cons]

/-- The entries before another one are printed first. -/
theorem loop_append {names ls : List (List UInt8)} (h : lines E dir n names = some ls)
    (rest : List (List UInt8)) :
    loop E dir n (names ++ rest)
      = ((loop E dir (n + names.length) rest).1,
        ls.flatten ++ (loop E dir (n + names.length) rest).2) := by
  induction names generalizing n ls with
  | nil =>
      obtain rfl := Option.some_inj.1 h
      rfl
  | cons d_name names ih =>
      obtain ⟨l, ls', hl, hls', rfl⟩ := lines_cons_eq_some_iff.1 h
      have hnum : n + (d_name :: names).length = n + 1 + names.length := by
        rw [List.length_cons]
        omega
      rw [List.cons_append, loop_of_line hl, ih hls', hnum, List.flatten_cons, List.append_assoc]

/-- When there is no complete listing, some entry is the first without a line. -/
theorem exists_of_lines_eq_none {names : List (List UInt8)} (h : lines E dir n names = none) :
    ∃ xs d_name ys ls, names = xs ++ d_name :: ys ∧ lines E dir n xs = some ls ∧
      line E dir (n + xs.length) d_name = none := by
  induction names generalizing n with
  | nil => cases h
  | cons d_name rest ih =>
      cases hl : line E dir n d_name with
      | none => exact ⟨[], d_name, rest, [], rfl, rfl, hl⟩
      | some l =>
          have hrest : lines E dir (n + 1) rest = none := by
            rw [lines, hl] at h
            exact Option.map_eq_none_iff.1 h
          obtain ⟨xs, d_name', ys, ls, rfl, hls, hnone⟩ := ih hrest
          refine ⟨d_name :: xs, d_name', ys, l :: ls, rfl, ?_, ?_⟩
          · exact lines_cons_eq_some_iff.2 ⟨l, ls, hl, hls, rfl⟩
          · rwa [List.length_cons, Nat.add_comm xs.length, ← Nat.add_assoc]

/-- An entry without a line is not in a complete listing. -/
theorem lines_eq_none_of_mem {xs ys : List (List UInt8)} {d_name : List UInt8}
    (h : line E dir (n + xs.length) d_name = none) :
    lines E dir n (xs ++ d_name :: ys) = none := by
  induction xs generalizing n with
  | nil =>
      rw [List.nil_append, lines]
      simpa using congrArg (fun l => l.bind fun l =>
        (lines E dir (n + 1) ys).map fun ls => l :: ls) h
  | cons x xs ih =>
      have hlines : lines E dir (n + 1) (xs ++ d_name :: ys) = none := by
        refine ih ?_
        rwa [List.length_cons, Nat.add_comm xs.length, ← Nat.add_assoc] at h
      rw [List.cons_append, lines, hlines]
      cases line E dir n x <;> rfl

end

/-! ### What success means -/

/-- What is printed is a complete listing: exactly one line for each entry, in the order of
`readdir`. -/
def Listed (E : Env) (dir : List UInt8) (out : List UInt8) : Prop :=
  ∃ ls, lines E dir 0 E.readdir = some ls ∧ out = header ++ ls.flatten

/-- **Success is reported only for a complete listing.** -/
def Complete (E : Env) (arg : List UInt8) : Prop :=
  E.opendir arg = .ok () → (main E arg).1 = 0 → Listed E (withSlash arg) (main E arg).2

/-- **The first call that fails is one of `getpwuid`**: `lstat` finds an entry whose owner is not
in the password database, and both calls have succeeded for all entries before it. -/
def Ownerless (E : Env) (dir : List UInt8) : Prop :=
  ∃ xs d_name ys st, E.readdir = xs ++ d_name :: ys ∧ (lines E dir 0 xs).isSome ∧
    E.lstat xs.length (dir ++ d_name) = .ok st ∧ E.getpwuid xs.length st.st_uid = none

theorem main_of_opendir {E : Env} {arg : List UInt8} (h : E.opendir arg = .ok ()) :
    main E arg = ((loop E (withSlash arg) 0 E.readdir).1,
      header ++ (loop E (withSlash arg) 0 E.readdir).2) := by
  simp only [main, h]

/-- Success is reported although an entry has no line. -/
theorem not_complete {E : Env} {arg : List UInt8} (hopen : E.opendir arg = .ok ())
    (h : Ownerless E (withSlash arg)) : ¬ Complete E arg := by
  intro hcomplete
  obtain ⟨xs, d_name, ys, st, hnames, hls, hst, howner⟩ := h
  obtain ⟨ls, hls⟩ := Option.isSome_iff_exists.1 hls
  have hline : line E (withSlash arg) (0 + xs.length) d_name = none := by
    rw [Nat.zero_add, line, hst]
    exact Option.map_eq_none_iff.2 howner
  have hstop : loop E (withSlash arg) (0 + xs.length) (d_name :: ys) = (0, []) := by
    rw [Nat.zero_add]
    simp only [loop, hst, howner]
  have hmain : (main E arg).1 = 0 := by
    rw [main_of_opendir hopen, hnames, loop_append hls, hstop]
  obtain ⟨ls', hall, -⟩ := hcomplete hopen hmain
  rw [hnames, lines_eq_none_of_mem hline] at hall
  cases hall

/-- **When success means that the listing is complete**: exactly when the first call that fails, if
any, is not one of `getpwuid`. -/
theorem complete_iff {E : Env} {arg : List UInt8} (hopen : E.opendir arg = .ok ()) :
    Complete E arg ↔ ¬ Ownerless E (withSlash arg) := by
  constructor
  · intro hcomplete howner
    exact not_complete hopen howner hcomplete
  · intro hnot _ hmain
    rw [main_of_opendir hopen] at hmain ⊢
    cases hls : lines E (withSlash arg) 0 E.readdir with
    | some ls => exact ⟨ls, hls, by rw [loop_of_lines hls]⟩
    | none =>
        obtain ⟨xs, d_name, ys, ls, hnames, hxs, hline⟩ := exists_of_lines_eq_none hls
        rw [Nat.zero_add, line] at hline
        cases hst : E.lstat xs.length (withSlash arg ++ d_name) with
        | error e =>
            -- a failure of `lstat` is reported
            rw [hnames, loop_append hxs] at hmain
            simp only [Nat.zero_add, loop, hst] at hmain
            exact absurd hmain e.property
        | ok st =>
            rw [hst] at hline
            have howner := Option.map_eq_none_iff.1 hline
            exact absurd ⟨xs, d_name, ys, st, hnames, by rw [hxs]; rfl, hst, howner⟩ hnot

/-- A directory whose entries are regular files; the users below `known` have a name. -/
def files (known : UInt32) (names : List (List UInt8)) : Env where
  opendir _ := .ok ()
  readdir := names
  lstat n _ := .ok ⟨0o100644, UInt32.ofNat n⟩
  getpwuid _ uid := if uid < known then some (ascii "user") else none

/-- Two files with owners, and two lines. -/
theorem complete_iff_files : Complete (files 2 [[97], [98]]) [100] := by
  refine (complete_iff rfl).2 ?_
  rintro ⟨xs, d_name, ys, st, hnames, -, hst, howner⟩
  have hlen := congrArg List.length hnames
  rw [List.length_append, List.length_cons] at hlen
  obtain rfl := Except.ok.inj hst
  have hxs : xs.length = 0 ∨ xs.length = 1 := by
    have htwo : (files 2 [[97], [98]]).readdir.length = 2 := rfl
    omega
  rcases hxs with h | h <;> rw [h] at howner <;> cases howner

/-- The owner of the only file has no name: nothing is listed, and success is reported. -/
theorem not_complete_files : ¬ ∀ E arg, Complete E arg := by
  intro hall
  have howner : Ownerless (files 0 [[97]]) (withSlash [100]) :=
    ⟨[], [97], [], ⟨0o100644, 0⟩, rfl, rfl, rfl, rfl⟩
  exact not_complete rfl howner (hall _ _)

end PrintFileInfo
