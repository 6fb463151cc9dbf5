import T2SDE.Lib.ShellFields
import T2SDE.LuaBash

namespace T2SDE.LuaBash

open Text ShellFields

/-- A word of a command as the shell keeps it. -/
structure Word where
  text : Str
  hasDollar : Bool
  quoted : Bool

/-- `make_word` of the shell, which marks what it finds in the text. -/
def makeWord (text : Str) : Word :=
  { text, hasDollar := text.contains '$', quoted := text.any fun c => c == '"' || c == '\'' || c == '`' }

/-- The shell: IFS, the names of files that a text stands for as a pattern, and the functions, which
are simple commands here. -/
structure Shell where
  ifs : Str
  glob : Str → List Str
  functions : Str → Option (List Word)

/-- The command that `register_function` binds to the name. -/
def functionBody (fnname : Str) : List Word :=
  [makeWord "luabash".toList, makeWord "call".toList, makeWord fnname, makeWord "$@".toList]

def Shell.registerFunction (sh : Shell) (fnname : Str) : Shell :=
  { sh with functions := fun name => if name = fnname then some (functionBody fnname) else sh.functions name }

/-- The expansion of a word that is `$@`, quoted or not, or has nothing to expand but a pattern. -/
def Shell.expandWord (sh : Shell) (params : List Str) (word : Word) : List Str :=
  if word.hasDollar && word.text.filter (· != '"') == "$@".toList then
    if word.quoted then params else params.flatMap (splitGlob sh.ifs sh.glob)
  else sh.glob word.text

/-- A command line is run: functions until it is one of the builtin, with a bound on the depth of the calls;
none where it is another command. -/
def Shell.execute {G : Type} (sh : Shell) (lua : Lua G) (bashVersion : Option Str) :
    Nat → List Str → Luabash G → Option (Luabash G × Int)
  | 0, _, _ => none
  | _ + 1, [], _ => none
  | fuel + 1, command :: params, s =>
    match sh.functions command with
    | some body => sh.execute lua bashVersion fuel (body.flatMap (sh.expandWord params)) s
    | none => if command = "luabash".toList then some (luabashBuiltin lua bashVersion params s) else none

/-- The call of a Lua function that a command of the builtin makes. -/
def builtinCall (command : Str) : List Str → Option (Str × List Str)
  | call :: func :: argv => if command = "luabash".toList ∧ call = "call".toList then some (func, argv)
  else none
  | _ => none

/-- The call of a Lua function that a command line ends in. -/
def Shell.called (sh : Shell) : Nat → List Str → Option (Str × List Str)
  | 0, _ => none
  | _ + 1, [] => none
  | fuel + 1, command :: params =>
    match sh.functions command with
    | some body => sh.called fuel (body.flatMap (sh.expandWord params))
    | none => builtinCall command params

/-- The characters of the names of Lua functions. -/
def plainChar (c : Char) : Bool := c.isAlphanum || c == '_'

section Execute

variable {G : Type} {sh : Shell} {lua : Lua G} {bashVersion : Option Str}

/-- The command line runs `call_function` with the function and the arguments. -/
theorem execute_called {fuel : Nat} {words : List Str} {func : Str} {argv : List Str}
    (h : sh.called fuel words = some (func, argv)) (s : Luabash G) :
    sh.execute lua bashVersion fuel words s = some (callFunction lua func argv s) := by
  induction fuel generalizing words with
  | zero => cases h
  | succ fuel ih =>
    cases words with
    | nil => cases h
    | cons command params =>
      rw [Shell.called] at h
      rw [Shell.execute]
      cases hbody : sh.functions command with
      | some body =>
        rw [hbody] at h
        exact ih h
      | none =>
        rw [hbody] at h
        dsimp only at h
        rcases params with _ | ⟨call, _ | ⟨f, args⟩⟩
        · cases h
        · cases h
        · rw [builtinCall] at h
          split at h
          next hcall =>
            obtain ⟨rfl, rfl⟩ := hcall
            cases h
            rfl
          next => cases h

/-- `call_function` gives the Lua function the words as strings. -/
theorem callFunction_run (func : Str) (argv : List Str) {s : Luabash G} (h : s.initialized = true) :
    (callFunction lua func argv s).1.globals =
      (lua.run s.globals (lua.getglobal s.globals func) (argv.map .string)).1 := by
  have hpushed : ∀ (words : List Str) (s : Luabash G),
      words.foldl (fun s word => s.push (.string word)) s =
        { s with stack := (words.map LuaValue.string).reverse ++ s.stack } := by
    intro words
    induction words with
    | nil => exact fun _ => rfl
    | cons word words ih =>
      intro s
      rw [List.foldl_cons, ih]
      simp [Luabash.push]
  let pushed : Luabash G :=
    { s with stack := (argv.map LuaValue.string).reverse ++ lua.getglobal s.globals func :: s.stack }
  have hargs : (pushed.stack.take argv.length).reverse = argv.map .string := by
    simp [pushed]
  have hfunc : pushed.stack.getD argv.length .nil = lua.getglobal s.globals func := by
    simp [pushed]
  have hpush : argv.foldl (fun s word => s.push (.string word)) (s.push (lua.getglobal s.globals func)) =
    pushed :=
    hpushed argv (s.push (lua.getglobal s.globals func))
  rw [callFunction, h]
  simp only [Bool.not_true, Bool.false_eq_true, if_false]
  rw [hpush]
  rcases pcall_cases lua argv.length 1 pushed with ⟨globals, results, hrun, hcall⟩ | ⟨globals, msg, hrun,
    hcall⟩
  · rw [hfunc, hargs] at hrun
    have hglobals : lua.run s.globals (lua.getglobal s.globals func) (argv.map .string) =
      (globals, .ok results) := hrun
    rw [hcall, hglobals]
    dsimp only
    split <;> rfl
  · rw [hfunc, hargs] at hrun
    have hglobals : lua.run s.globals (lua.getglobal s.globals func) (argv.map .string) =
      (globals, .error msg) := hrun
    rw [hcall, hglobals]
    rfl

end Execute

section Forward

variable {sh : Shell} {fnname : Str} {args : List Str}

/-- The words of the registered function: what has no special character is left as it is, and the last
word, which is not marked as quoted, is split and expanded. -/
theorem functionBody_words (hname : ∀ c ∈ fnname, plainChar c = true)
    (hglob : ∀ s, (∀ c ∈ s, plainChar c = true) → sh.glob s = [s]) :
    (functionBody fnname).flatMap (sh.expandWord args) =
      "luabash".toList :: "call".toList :: fnname :: args.flatMap (splitGlob sh.ifs sh.glob) := by
  have hplain : ∀ s : Str, (∀ c ∈ s, plainChar c = true) → sh.expandWord args (makeWord s) = [s] := by
    intro s hs
    have hdollar : s.contains '$' = false := by
      by_contra h
      exact absurd (hs '$' (by simpa using h)) (by decide)
    rw [Shell.expandWord, makeWord]
    simp only [hdollar, Bool.false_and, Bool.false_eq_true, if_false]
    exact hglob s hs
  have hluabash := hplain "luabash".toList (List.all_eq_true.mp rfl)
  have hcall := hplain "call".toList (List.all_eq_true.mp rfl)
  have hat : sh.expandWord args (makeWord "$@".toList) = args.flatMap (splitGlob sh.ifs sh.glob) := rfl
  simp only [functionBody, List.flatMap_cons, List.flatMap_nil, hluabash, hcall, hplain fnname hname, hat]
  simp

/-- The Lua function gets the fields of the arguments, and the names that they stand for as patterns. -/
theorem called_registered (hname : ∀ c ∈ fnname, plainChar c = true)
    (hglob : ∀ s, (∀ c ∈ s, plainChar c = true) → sh.glob s = [s])
    (hbuiltin : (sh.registerFunction fnname).functions "luabash".toList = none) (fuel : Nat) :
    (sh.registerFunction fnname).called (fuel + 2) (fnname :: args) =
      some (fnname, args.flatMap (splitGlob sh.ifs sh.glob)) := by
  have hbody : (sh.registerFunction fnname).functions fnname = some (functionBody fnname) := if_pos rfl
  have hwords : (functionBody fnname).flatMap ((sh.registerFunction fnname).expandWord args) =
      "luabash".toList :: "call".toList :: fnname :: args.flatMap (splitGlob sh.ifs sh.glob) :=
    @functionBody_words (sh.registerFunction fnname) _ _ hname hglob
  rw [Shell.called, hbody]
  dsimp only
  rw [hwords, Shell.called, hbuiltin]
  rfl

/-- A registered function forwards its arguments if none of them is empty, has a character of IFS or
matches another file; and only then, unless there are files with such names themselves. -/
theorem called_args_iff (sh : Shell) (fnname : Str) (args : List Str) (fuel : Nat)
    (hname : ∀ c ∈ fnname, plainChar c = true)
    (hglob : ∀ s, (∀ c ∈ s, plainChar c = true) → sh.glob s = [s])
    (hbuiltin : (sh.registerFunction fnname).functions "luabash".toList = none) :
    ((∀ a ∈ args, a ≠ [] ∧ (∀ c ∈ a, c ∉ sh.ifs) ∧ sh.glob a = [a]) →
      (sh.registerFunction fnname).called (fuel + 2) (fnname :: args) = some (fnname, args)) ∧
    ((∀ s, sh.glob s = [s] ∨ sh.glob s ≠ [] ∧ ∀ name ∈ sh.glob s, name ≠ [] ∧ ∀ c ∈ name, c ∉ sh.ifs) →
      ((sh.registerFunction fnname).called (fuel + 2) (fnname :: args) = some (fnname, args) ↔
        ∀ a ∈ args, a ≠ [] ∧ (∀ c ∈ a, c ∉ sh.ifs) ∧ sh.glob a = [a])) := by
  rw [called_registered hname hglob hbuiltin]
  simp only [Option.some.injEq, Prod.mk.injEq, true_and]
  exact ⟨splitGlob_args, fun hfiles => ⟨args_of_splitGlob hfiles, splitGlob_args⟩⟩

end Forward

/-- A shell with the default IFS in a directory without files. -/
def sampleShell : Shell := { ifs := " \t\n".toList, glob := fun s => [s], functions := fun _ => none }

theorem pkgenable_plain : ∀ c ∈ "pkgenable".toList, plainChar c = true :=
  List.all_eq_true.mp (rfl : "pkgenable".toList.all plainChar = true)

theorem called_args_sample :
    (sampleShell.registerFunction "pkgenable".toList).called 2 ["pkgenable".toList, "perl/perl".toList] =
      some ("pkgenable".toList, ["perl/perl".toList]) := by
  have hforward := (called_args_iff sampleShell "pkgenable".toList ["perl/perl".toList] 0
    pkgenable_plain (fun _ _ => rfl) (by decide +kernel)).2 fun _ => .inl rfl
  refine hforward.mpr fun a ha => ?_
  rw [List.mem_singleton.mp ha]
  exact ⟨by decide, not_mem_of_all rfl, rfl⟩

/-- A blank in an argument makes two of it. -/
theorem called_args_blank :
    (sampleShell.registerFunction "pkgenable".toList).called 2 ["pkgenable".toList, "perl extra".toList] =
      some ("pkgenable".toList, ["perl".toList, "extra".toList]) := by
  decide +kernel

end T2SDE.LuaBash
