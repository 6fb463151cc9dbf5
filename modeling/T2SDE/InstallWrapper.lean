import Mathlib.Data.List.DropRight
import Mathlib.Data.List.Infix
import T2SDE.Lib.PathName
import T2SDE.Lib.ShellFields

namespace T2SDE.Install

open Text PathName ShellFields

/-- Where a command line is run: the current directory, the directories there are by their components,
and what the shell makes of a text outside of quotes. -/
structure Site where
  pwd : Str
  rooted : pwd.head? = some '/'
  isDir : List Str → Bool
  ifs : Str
  glob : Str → List Str

/-- The components of the path from the root. -/
def Site.path (site : Site) (s : Str) : List Str :=
  if s.head? = some '/' then components s else components site.pwd ++ components s

/-- `[ -d "$s" ]` -/
def Site.dir (site : Site) (s : Str) : Bool := !s.isEmpty && site.isDir (site.path s)

/-- The name that a source has in the directory that it is copied to. -/
def Site.base (site : Site) (s : Str) : List Str := (site.path s).getLast?.toList

/-- A command line of the real command: the options, each with its argument, the arguments of `-t`
and the operands. -/
structure CommandLine where
  options : List (List Str)
  targets : List Str
  operands : List Str

/-- What is copied, moved or linked: a file, or for a symbolic link a text. -/
inductive Source
  | file (path : List Str)
  | text (s : Str)

/-- One target of a command, with nothing as its source where it is a directory to make. -/
structure Effect where
  options : List (List Str)
  source : Option Source
  target : List Str

/-- What an option makes of the operands: `-d` of install makes directories of them, `-s` of ln or cp
links to the texts that they are, and others may do something else, as `-T` does. -/
inductive Role
  | plain
  | directories
  | symbolic
  | other
  deriving DecidableEq

/-- `-s|--strip` -/
def isStrip (option : List Str) : Bool := option == ["-s".toList] || option == ["--strip".toList]

/-- `[[ $command != *install ]]` fails. -/
def isInstall (command : Str) : Bool := "install".toList.isSuffixOf command

/-- The real command: which words take the next one as their argument, what the options are for, and
what is done where there is an option of the other kinds. -/
structure Tool where
  name : Str
  takes : Str → Bool
  role : List Str → Role
  special : Site → CommandLine → List Effect
  strip : isInstall name = true → ∀ option, isStrip option = true → role option = .plain

/-- The words of a command line as `getopt_long` sorts them. -/
def read (takes : Str → Bool) : List Str → Option CommandLine
  | [] => some ⟨[], [], []⟩
  | w :: rest =>
    if w = "--".toList then some ⟨[], [], rest⟩
    else if w = "-t".toList then
      match rest with
      | [] => none
      | d :: rest => (read takes rest).map fun l => { l with targets := d :: l.targets }
    else if w.head? = some '-' ∧ w ≠ "-".toList then
      if takes w then
        match rest with
        | [] => none
        | a :: rest => (read takes rest).map fun l => { l with options := [w, a] :: l.options }
      else (read takes rest).map fun l => { l with options := [w] :: l.options }
    else (read takes rest).map fun l => { l with operands := w :: l.operands }

section Tool

variable (tool : Tool) (site : Site) (options : List (List Str))

def Tool.has (role : Role) : Bool := options.any (tool.role · == role)

def Tool.source (s : Str) : Source := if tool.has options .symbolic then .text s else .file (site.path s)

/-- The source is copied into the directory. -/
def Tool.copyInto (dir : List Str) (s : Str) : Effect :=
  ⟨options, some (tool.source site options s), dir ++ site.base s⟩

/-- The source is copied to the target. -/
def Tool.copyTo (target : List Str) (s : Str) : Effect := ⟨options, some (tool.source site options s), target⟩

def Site.makeDir (s : Str) : Effect := ⟨options, none, site.path s⟩

/-- There is no file with an empty name. -/
def named (operands : List Str) : List Str := operands.filter (!·.isEmpty)

/-- The last operand is the destination; ln takes the current directory if there is nothing else. -/
def Tool.copies (operands : List Str) : List Effect :=
  let destination := operands.getLastD []
  if operands.dropLast = [] then
    if tool.name = "ln".toList then
      (named operands).map (tool.copyInto site options (components site.pwd))
    else []
  else if site.dir destination then
    (named operands.dropLast).map (tool.copyInto site options (site.path destination))
  else
    match operands.dropLast with
    | [s] => if s = [] ∨ destination = [] then [] else [tool.copyTo site options (site.path destination) s]
    | _ => []

/-- What the real command does. -/
def Tool.effects (l : CommandLine) : List Effect :=
  if tool.has l.options .other then tool.special site l
  else if tool.has l.options .directories then
    if l.targets = [] then (named l.operands).map (site.makeDir l.options) else []
  else
    match l.targets with
    | [] => tool.copies site l.options l.operands
    | [d] =>
      if site.dir d then (named l.operands).map (tool.copyInto site l.options (site.path d)) else []
    | _ => []

/-- What a command of these words does. -/
def Tool.run : List Str → List Effect
  | [] => []
  | command :: args =>
    if command = tool.name then ((read tool.takes args).map (tool.effects site)).getD [] else []

end Tool

/-- The options without `-s` and `--strip` if the command is install. -/
def kept (command : Str) (options : List (List Str)) : List (List Str) :=
  if isInstall command then options.filter (!isStrip ·) else options

/-- What the wrapper is for: what the real command does, but nothing is stripped. -/
def Tool.wanted (tool : Tool) (site : Site) (args : List Str) : List Effect :=
  (tool.run site (tool.name :: args)).map fun e => { e with options := kept tool.name e.options }

/-- `newcommand`, `sources` and `destination` -/
structure Scan where
  newcommand : Str
  sources : List Str
  destination : Str

/-- The words of the first case, which come with an argument. -/
def withArgument : List Str :=
  ["-g".toList, "-m".toList, "-o".toList, "-S".toList, "--group".toList, "--mode".toList, "--owner".toList,
    "--suffix".toList]

/-- The last case: the destination so far is a source. -/
def Scan.operand (s : Scan) (w : Str) : Scan :=
  if s.destination ≠ [] then { s with sources := s.sources ++ [s.destination], destination := w }
  else { s with destination := w }

/-- The loop over the arguments. -/
def scan (command : Str) (s : Scan) : List Str → Scan
  | [] => s
  | w :: rest =>
    if w ∈ withArgument then
      match rest with
      | [] => { s with newcommand := s.newcommand ++ ' ' :: w ++ [' '] }
      | a :: rest => scan command { s with newcommand := s.newcommand ++ ' ' :: w ++ ' ' :: a } rest
    else if w = "-s".toList ∨ w = "--strip".toList then
      if isInstall command then scan command s rest
      else scan command { s with newcommand := s.newcommand ++ ' ' :: w } rest
    else if w = "-t".toList then scan command s rest
    else if w.head? = some '-' then scan command { s with newcommand := s.newcommand ++ ' ' :: w } rest
    else scan command (s.operand w) rest

/-- `${s//\/\///}` -/
def squeeze : Str → Str
  | '/' :: '/' :: s => '/' :: squeeze s
  | c :: s => c :: squeeze s
  | [] => []

/-- `${s##*/}` -/
def afterSlash (s : Str) : Str := s.rtakeWhile (· != '/')

/-- The destination is absolute from here on. -/
def Site.absolute (site : Site) (destination : Str) : Str :=
  if destination = [] ∨ destination.head? = some '/' then destination else site.pwd ++ '/' :: destination

/-- `$thisdest` of a source. -/
def Site.thisdest (site : Site) (destination source : Str) : Str :=
  squeeze (if site.dir (squeeze source) then destination else destination ++ '/' :: afterSlash source)

/-- The commands that the wrapper runs without a filter. -/
def wrapperMain (site : Site) (command : Str) (args : List Str) : List (List Str) :=
  if ∃ a ∈ args, "--target-directory".toList <:+: a then [command :: args]
  else
    let s := scan command ⟨command, [], []⟩ args
    let newcommand := splitGlob site.ifs site.glob s.newcommand
    let destination := site.absolute s.destination
    if destination = [] ∨ s.sources = [] then [newcommand ++ [destination]]
    else if site.dir destination then
      s.sources.flatMap fun source =>
        if site.thisdest destination source = [] then []
        else [newcommand ++ [source, site.thisdest destination source]]
    else [newcommand ++ s.sources ++ [destination]]

/-- The commands of the wrapper do what the real command would do, except for stripping. -/
def Tool.Faithful (tool : Tool) (site : Site) (args : List Str) : Prop :=
  ∀ e, e ∈ tool.wanted site args ↔ e ∈ (wrapperMain site tool.name args).flatMap (tool.run site)

section Paths

variable {site : Site} {s destination : Str}

theorem tokensAux_squeeze (s : Str) : tokensAux (· == '/') (squeeze s) = tokensAux (· == '/') s := by
  fun_induction squeeze s with
  | case1 s ih => simp [tokensAux, ih, consWord]
  | case2 c s _ ih => rw [tokensAux, ih, tokensAux]
  | case3 => rfl

theorem components_squeeze (s : Str) : components (squeeze s) = components s := by
  rw [components, components, tokens, tokens, tokensAux_squeeze]

theorem head_squeeze (s : Str) : (squeeze s).head? = s.head? := by
  fun_cases squeeze s <;> rfl

theorem dir_squeeze (s : Str) : site.dir (squeeze s) = site.dir s := by
  have hempty : (squeeze s).isEmpty = s.isEmpty := by fun_cases squeeze s <;> rfl
  rw [Site.dir, Site.dir, Site.path, Site.path, hempty, head_squeeze, components_squeeze]

theorem path_slash (h : s.head? = some '/') : site.path s = components s := if_pos h

/-- The file is the same from any directory. -/
theorem path_absolute (hne : s ≠ []) : site.path (site.absolute s) = site.path s := by
  by_cases hs : s.head? = some '/'
  · rw [Site.absolute, if_pos (.inr hs)]
  · have hhead : (site.pwd ++ '/' :: s).head? = some '/' := by
      rw [List.head?_append, site.rooted]
      rfl
    rw [Site.absolute, if_neg (by simp [hne, hs]), path_slash hhead, Site.path, if_neg hs, components,
      tokens_append_sep rfl]
    rfl

theorem head_absolute (site : Site) (hne : s ≠ []) : (site.absolute s).head? = some '/' := by
  by_cases hs : s.head? = some '/'
  · rwa [Site.absolute, if_pos (.inr hs)]
  · rw [Site.absolute, if_neg (by simp [hne, hs]), List.head?_append, site.rooted]
    rfl

theorem absolute_ne_nil (site : Site) (hne : s ≠ []) : site.absolute s ≠ [] := by
  intro h
  have hhead := head_absolute site hne
  rw [h] at hhead
  cases hhead

theorem dir_absolute (hne : s ≠ []) : site.dir (site.absolute s) = site.dir s := by
  have hs : s.isEmpty = false := by simpa using hne
  have habs : (site.absolute s).isEmpty = false := by simpa using absolute_ne_nil site hne
  rw [Site.dir, Site.dir, path_absolute hne, hs, habs]

/-- The sources for which the wrapper leaves the destination as it is: directories, and what has no name
behind its last slash. -/
def Site.unnamed (site : Site) (s : Str) : Bool := site.dir s || s.getLast? == some '/'

theorem afterSlash_last (hne : s ≠ []) (hend : s.getLast? ≠ some '/') :
    afterSlash s ≠ [] ∧ ∃ cs, components s = cs ++ [afterSlash s] := by
  have hlast : afterSlash s ≠ [] := by
    intro h
    rw [afterSlash, List.rtakeWhile_eq_nil_iff] at h
    have hslash := h hne
    rw [List.getLast?_eq_some_getLast hne] at hend
    exact hslash (by simpa using hend)
  have hfree : ∀ c ∈ afterSlash s, (c == '/') = false := fun c hc => by
    simpa using List.mem_rtakeWhile_imp hc
  have hsplit : s.rdropWhile (· != '/') ++ afterSlash s = s := List.rdropWhile_append_rtakeWhile
  refine ⟨hlast, ?_⟩
  rcases List.eq_nil_or_concat (s.rdropWhile (· != '/')) with hnil | ⟨u, c, hu⟩
  · rw [hnil, List.nil_append] at hsplit
    refine ⟨[], ?_⟩
    rw [← tokens_word hlast hfree, hsplit]
    rfl
  · have hc : c = '/' := by
      have hlastu := List.rdropWhile_last_not (· != '/') s (by simp [hu])
      simpa [hu] using hlastu
    refine ⟨components u, ?_⟩
    rw [List.concat_eq_append, hc] at hu
    rw [← tokens_word hlast hfree]
    conv => lhs; rw [← hsplit, hu, List.append_assoc]
    exact tokens_append_sep rfl u (afterSlash s)

theorem base_afterSlash (site : Site) (hne : s ≠ []) (hend : s.getLast? ≠ some '/') :
    afterSlash s ≠ [] ∧ site.base s = [afterSlash s] := by
  obtain ⟨hlast, cs, hcs⟩ := afterSlash_last hne hend
  refine ⟨hlast, ?_⟩
  rw [Site.base, Site.path]
  split
  · rw [hcs, List.getLast?_concat]
    rfl
  · rw [hcs, ← List.append_assoc, List.getLast?_concat]
    rfl

theorem base_ne_nil (hne : s ≠ []) (h : site.unnamed s = false) : site.base s ≠ [] := by
  obtain ⟨_, hend⟩ := Bool.or_eq_false_iff.mp h
  rw [(base_afterSlash site hne (by simpa using hend)).2]
  exact List.cons_ne_nil _ _

theorem head_thisdest (site : Site) (h : destination.head? = some '/') (s : Str) :
    (site.thisdest destination s).head? = some '/' := by
  rw [Site.thisdest, head_squeeze]
  split
  · exact h
  · rw [List.head?_append, h]
    rfl

/-- A source is copied to its name in the destination, or to the destination itself. -/
theorem path_thisdest (site : Site) (h : destination.head? = some '/') (hne : s ≠ []) :
    site.path (site.thisdest destination s) =
      site.path destination ++ if site.unnamed s then [] else site.base s := by
  have hslash : (destination ++ '/' :: afterSlash s).head? = some '/' := by
    rw [List.head?_append, h]
    rfl
  rw [path_slash (head_thisdest site h s), path_slash h, Site.thisdest, components_squeeze, dir_squeeze]
  by_cases hdir : site.dir s = true
  · rw [if_pos hdir, Site.unnamed, hdir, Bool.true_or, if_pos rfl, List.append_nil]
  · rw [if_neg hdir, components, tokens_append_sep rfl]
    by_cases hend : s.getLast? = some '/'
    · have hnil : afterSlash s = [] := by
        rw [afterSlash, List.rtakeWhile_eq_nil_iff]
        intro hne
        rw [List.getLast?_eq_some_getLast hne, Option.some.injEq] at hend
        simp [hend]
      have hunnamed : site.unnamed s = true := by simp [Site.unnamed, hend]
      rw [hnil, hunnamed]
      rfl
    · obtain ⟨hlast, hbase⟩ := base_afterSlash site hne hend
      have hunnamed : site.unnamed s = false := by simp [Site.unnamed, hend, hdir]
      have hfree : ∀ c ∈ afterSlash s, (c == '/') = false := fun c hc => by
        simpa using List.mem_rtakeWhile_imp hc
      rw [tokens_word hlast hfree, hunnamed, hbase]
      rfl

end Paths

end T2SDE.Install
