import T2SDE.Lib.Awk

namespace T2SDE

open Text Awk

/-- The values `stagelevel` and `stage9_no_deps` are compared as: a number and a string
constant differ, since `"x"` is no numeral. -/
inductive AwkValue
  | num (n : Nat)
  | str (s : Str)
  deriving DecidableEq

/-- A line on standard output: a job, or a message of the `-debug` option. -/
inductive QueueLine
  | debug (text : Str)
  | job (text : Str)
  deriving DecidableEq

/-- What the BEGIN block is given: the options, the lines of the packages file, and the file
system as `getline dummy < file` sees it. -/
structure QueueEnv where
  single : Bool
  debug : Bool
  nobrokendeps : Bool
  logdir : Str
  packagesFile : List Str
  readable : Str → Bool

/-- The global variables that live from one call of `check_package` to the next. -/
structure QueueVars where
  notPresent : Str
  stage0NotPresent : Bool
  stage01NotPresent : Bool
  stage9NoDeps : AwkValue
  database : Str → Option Str
  out : List QueueLine
  exited : Bool

/-- `logfile_tpl` with its tags replaced; `ext` is `log`, `err` or `out`. -/
def logPath (logdir : Str) (stagelevel : Nat) (repository package ext : Str) : Str :=
  let file := logdir ++ "/<stagelevel>-<package>.<log>".toList
  let file := gsub "<stagelevel>".toList (digits stagelevel) file
  let file := gsub "<repository>".toList repository file
  let file := gsub "<package>".toList package file
  gsub "<log>".toList ext file

/-- The variables `check_package` sets anew for every pair. -/
structure QueueLocals where
  buildThisPackage : Bool
  foundDependencies : Bool
  buildtime : Str
  priority : Str
  out : List QueueLine

/-- The loop over the dependencies `a[c]` of the package. -/
def checkDependencies (env : QueueEnv) (stagelevel : Nat) (package : Str) (g : QueueVars) :
    List Str → QueueLocals → QueueLocals
  | [], l => l
  | dep :: a, l =>
    let l := if index g.notPresent (pad dep) && .num stagelevel != g.stage9NoDeps then
        let out := if env.debug && l.buildThisPackage then
            l.out ++ [.debug ("DEBUG: Not building ".toList ++ digits stagelevel ++ "-".toList ++
              package ++ ": ".toList ++ dep ++ " is missing".toList)]
          else l.out
        { l with buildThisPackage := false, out }
      else l
    checkDependencies env stagelevel package g a { l with foundDependencies := true }

/-- `if ( build_this_package && (package in database) )` -/
def checkDatabase (env : QueueEnv) (stagelevel : Nat) (package : Str) (g : QueueVars)
    (l : QueueLocals) : QueueLocals :=
  match g.database package with
  | none => l
  | some depline =>
    if l.buildThisPackage then
      let a := split depline
      checkDependencies env stagelevel package g a { l with buildtime := field a 2, priority := field a 3 }
    else l

/-- The printed job: `sub("^X ", priority " ", pkgline); sub(" 0$", " " buildtime, pkgline)`. -/
def queueLine (stagelevel : Nat) (priority buildtime pkgline : Str) : Str :=
  digits stagelevel ++ " ".toList ++
    subEnd " 0".toList (" ".toList ++ buildtime) (subStart "X ".toList (priority ++ " ".toList) pkgline)

/-- The body of `check_package` for a pair with neither a log nor an err file. -/
def checkMissing (env : QueueEnv) (stagelevel : Nat) (pkgline package outfile : Str)
    (g : QueueVars) : QueueVars :=
  let buildThisPackage := !env.readable outfile
  let earlier := index g.notPresent (pad package)
  let out := if earlier && env.debug && buildThisPackage then
      g.out ++ [.debug ("DEBUG: Not building ".toList ++ digits stagelevel ++ "-".toList ++
        package ++ ": earlier stages not done for this package.".toList)]
    else g.out
  let buildThisPackage := buildThisPackage && !earlier
  let l := checkDatabase env stagelevel package g
    { buildThisPackage, foundDependencies := false, buildtime := "60".toList,
      priority := "0".toList, out }
  let buildThisPackage := l.buildThisPackage && !(stagelevel == 0 && g.notPresent != [])
  let stage0NotPresent := g.stage0NotPresent || stagelevel == 0
  let buildThisPackage := buildThisPackage && !(decide (stagelevel > 0) && stage0NotPresent)
  let stage01NotPresent := g.stage01NotPresent || decide (stagelevel ≤ 1)
  let buildThisPackage := buildThisPackage && !(decide (stagelevel ≥ 2) && stage01NotPresent)
  let stage9NoDeps := if stagelevel < 9 then .str "x".toList else g.stage9NoDeps
  let buildThisPackage := buildThisPackage &&
    !(!l.foundDependencies && g.notPresent != [] && .num stagelevel != stage9NoDeps)
  -- t2-debug must be build _after_ all other packages
  let buildThisPackage := buildThisPackage && !(package == "t2-debug".toList && g.notPresent != [])
  let out := if buildThisPackage then
      l.out ++ [.job (queueLine stagelevel l.priority l.buildtime pkgline)]
    else l.out
  let g := { g with stage0NotPresent, stage01NotPresent, stage9NoDeps, out }
  -- `exit 0` leaves before the package is noted as not present
  if buildThisPackage && env.single then { g with exited := true }
  else { g with notPresent := g.notPresent ++ pad package }

/-- `check_package()` of the awk program. -/
def checkPackage (env : QueueEnv) (stagelevel : Nat) (g : QueueVars) (pkgline : Str) : QueueVars :=
  let a := split pkgline
  if field a 1 != "X".toList || !index (field a 2) (digits stagelevel) then g
  else
    let repository := field a 4
    let package := field a 5
    let logfile := logPath env.logdir stagelevel repository package "log".toList
    let errfile := logPath env.logdir stagelevel repository package "err".toList
    let outfile := logPath env.logdir stagelevel repository package "out".toList
    if !env.readable logfile && !env.readable errfile then
      checkMissing env stagelevel pkgline package outfile g
    else if env.nobrokendeps && env.readable errfile then
      { g with notPresent := g.notPresent ++ pad package }
    else g

/-- The variables as BEGIN sets them; no statement of the program fills `database`. -/
def queueInit : QueueVars :=
  { notPresent := [], stage0NotPresent := false, stage01NotPresent := false,
    stage9NoDeps := .num 9, database := fun _ => none, out := [], exited := false }

/-- One pass of the `for` loop over the stages. -/
def readPackages (env : QueueEnv) (g : QueueVars) (stagelevel : Nat) : QueueVars :=
  env.packagesFile.foldl
    (fun g pkgline => if g.exited then g else checkPackage env stagelevel g pkgline) g

def createPkgQueue (env : QueueEnv) : List QueueLine :=
  ((List.range 10).foldl (readPackages env) queueInit).out

end T2SDE
