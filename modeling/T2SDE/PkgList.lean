import T2SDE.Lib.LuaPattern

namespace T2SDE

open Text Lua

inductive Selection
  | on
  | off
  deriving DecidableEq

/-- The status of a package; a removed one, written `-`, stays so. -/
inductive Status
  | selected (s : Selection)
  | removed
  deriving DecidableEq

/-- An entry of the Lua table `packages`; `aliasName` is its field `alias`. -/
structure Package where
  status : Status
  stages : Str
  priority : Str
  repository : Str
  name : Str
  ver : Str
  extraver : Str
  categories : Option Str
  flags : Str
  aliasName : Str
  defaultStatus : Selection
  deriving DecidableEq

structure LuaState where
  packages : List Package
  printed : List Str

def Selection.text : Selection → Str
  | .on => "X".toList
  | .off => "O".toList

/-- The status from its capture, which is `X` or `O`. -/
def Selection.read (s : Str) : Selection := if s = "X".toList then .on else .off

def pkgPattern : Str :=
  ("([XO]) *([0123456789?-]+) *([0123456789.]+) *(%S+) *(%S+) *(%S+) *(%S*) */ " ++
    "([abcdefghijklmnopqrstuvwxyz0123456789/ ]+) *" ++
    "([ABCDEFGHIJKLMNOPQRSTUVWXYZ0123456789 _-]*) 0").toList

def categoriesPattern : Str := "(.*%S) *".toList

/-- The body of the loop of `pkglistread`: one line is a package or is reported. -/
def readLine (line : Str) : Option Package × List Str :=
  match strMatch line pkgPattern with
  | some [status, stages, priority, repository, name, ver, extraver, categories, flags] =>
    let categories := (strMatch categories categoriesPattern).bind List.head?
    (some { status := .selected (.read status), stages, priority, repository, name, ver, extraver,
            categories, flags, aliasName := name, defaultStatus := .read status }, [])
  | _ => (none, ["error no Cateory tag - parsing: \t".toList ++ line, "error parsing: \t".toList ++ line])

def pkglistread (text : Str) (st : LuaState) : LuaState :=
  (fileLines text).foldl
    (fun st line => { packages := st.packages ++ (readLine line).1.toList
                      printed := st.printed ++ (readLine line).2 })
    { st with packages := [] }

/-- What is written for a package; writing nil is an error. -/
def writePackage (pkg : Package) (status : Selection) : Option Str :=
  pkg.categories.map fun categories =>
    status.text ++ " ".toList ++ pkg.stages ++ " ".toList ++ pkg.priority ++ " ".toList ++
      pkg.repository ++ " ".toList ++ pkg.aliasName ++ " ".toList ++ pkg.ver ++
      (if pkg.extraver.length > 0 then " ".toList ++ pkg.extraver else []) ++
      " / ".toList ++ categories ++
      (if pkg.flags.length > 0 then " ".toList ++ pkg.flags else []) ++ " 0\n".toList

/-- The text of the file; none where the loop stops with an error. -/
def pkglistwrite : List Package → Option Str
  | [] => some []
  | pkg :: packages =>
    match pkg.status with
    | .removed => pkglistwrite packages
    | .selected s => (writePackage pkg s).bind fun text => (pkglistwrite packages).map (text ++ ·)

end T2SDE
