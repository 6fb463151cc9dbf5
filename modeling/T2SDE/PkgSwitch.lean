import T2SDE.PkgList
import T2SDE.Lib.LuaSteps

namespace T2SDE

open Text Lua

/-- What a switch sets: a status, or with `=` the default one. -/
inductive Mode
  | set (s : Status)
  | default
  deriving DecidableEq

def Mode.status : Mode → Package → Status
  | .set s, _ => s
  | .default, p => .selected p.defaultStatus

/-- The assignment of `pkgswitch` to a matching package. -/
def Package.switch (p : Package) (mode : Mode) : Package :=
  if p.status ≠ .removed then { p with status := mode.status p } else p

/-- What a call leaves behind, and whether an error cut it short. -/
structure Outcome (σ : Type) where
  state : σ
  raised : Bool

def Outcome.andThen {σ : Type} (o : Outcome σ) (f : σ → Outcome σ) : Outcome σ :=
  if o.raised then o else f o.state

def tr : List Str → Str
  | [['+']] => "%+".toList
  | [['-']] => "%-".toList
  | [['*']] => ".*".toList
  | captures => captures.flatten

def expand (s : Str) : Str := "^".toList ++ gsub s "([+*-])".toList tr ++ "$".toList

/-- The repository and the package of an argument. -/
def splitArg (arg : Str) : Str × Str :=
  match strMatch arg "(.*)/(.*)".toList with
  | some [rep, pkg] => (rep, pkg)
  | _ => ("*".toList, arg)

def packageMatches (rep pkg : Str) (p : Package) : Option Bool :=
  (strMatches p.aliasName pkg).bind fun hit => if hit then strMatches p.repository rep else some false

/-- The loop of `pkgswitch` over the packages. -/
def switchLoop (mode : Mode) (rep pkg : Str) (pkgMatch : Bool) : List Package → Outcome (List Package)
  | [] => ⟨[], false⟩
  | p :: packages =>
    let rest := switchLoop mode rep pkg pkgMatch packages
    match packageMatches rep pkg p with
    | none => ⟨p :: packages, true⟩
    | some false => ⟨p :: rest.state, rest.raised⟩
    | some true =>
      if pkgMatch then ⟨p.switch mode :: packages, false⟩
      else ⟨p.switch mode :: rest.state, rest.raised⟩

def pkgswitch (mode : Mode) : List Str → List Package → Outcome (List Package)
  | [], packages => ⟨packages, false⟩
  | arg :: args, packages =>
    let rep := expand (splitArg arg).1
    let pkg := expand (splitArg arg).2
    -- an optimization of the source: without a wildcard the first match is the only one
    let pkgMatch := strMatches pkg "*".toList = some false
    (switchLoop mode rep pkg pkgMatch packages).andThen (pkgswitch mode args)

def pkgenable (args : List Str) (packages : List Package) : Outcome (List Package) :=
  pkgswitch (.set (.selected .on)) args packages

def pkgdisable (args : List Str) (packages : List Package) : Outcome (List Package) :=
  pkgswitch (.set (.selected .off)) args packages

def pkgremove (args : List Str) (packages : List Package) : Outcome (List Package) :=
  pkgswitch (.set .removed) args packages

structure Rule where
  mode : Mode
  pattern : Str
  deriving DecidableEq

inductive SelLine
  | rule (r : Rule)
  | file (filename : Str)
  | other
  deriving DecidableEq

def selAction (action pattern : Str) : SelLine :=
  if action = "x".toList ∨ action = "X".toList then .rule ⟨.set (.selected .on), pattern⟩
  else if action = "o".toList ∨ action = "O".toList then .rule ⟨.set (.selected .off), pattern⟩
  else if action = "-".toList then .rule ⟨.set .removed, pattern⟩
  else if action = "=".toList then .rule ⟨.default, pattern⟩
  else if action = "include".toList then .file pattern
  else .other

def selLine (line : Str) : SelLine :=
  match strMatch (gsub line "#.*".toList fun _ => []) "(%S+) +(%S+)".toList with
  | some [action, pattern] => selAction action pattern
  -- the test for a syntax error compares a boolean with a text and never prints
  | _ => .other

/-- The loop of `pkgsel_parse` over the lines; `parse` is the call for an included file. -/
def selLoop (parse : Str → LuaState → Outcome LuaState) : List Str → LuaState → Outcome LuaState
  | [], st => ⟨st, false⟩
  | line :: lines, st =>
    match selLine line with
    | .rule r =>
      let o := pkgswitch r.mode [r.pattern] st.packages
      Outcome.andThen ⟨{ st with packages := o.state }, o.raised⟩ (selLoop parse lines)
    | .file filename => (parse filename st).andThen (selLoop parse lines)
    | .other => selLoop parse lines st

def openFailed (filename : Str) (st : LuaState) : LuaState :=
  { st with printed := st.printed ++ ["Error opening file: '".toList ++ filename ++ "'".toList] }

/-- `pkgsel_parse`, where at most `handles` files can be open at a time. -/
def pkgselParse (fs : Str → Option Str) : Nat → Str → LuaState → Outcome LuaState
  | 0, filename, st => ⟨openFailed filename st, false⟩
  | handles + 1, filename, st =>
    match fs filename with
    | none => ⟨openFailed filename st, false⟩
    | some text => selLoop (pkgselParse fs handles) (fileLines text) st

end T2SDE
