import T2SDE.Lib.DepthFirst
import T2SDE.PkgInstalled

namespace T2SDE.Emerge

open Text

section Functions

inductive Deps
  | none
  | fast
  | indirect
  deriving DecidableEq

inductive Missing
  | yes
  | no
  | only
  deriving DecidableEq

structure Options where
  deps : Deps
  missing : Missing
  ignoreChksum : Bool
  rebuild : Bool
  force : Bool

/-- What the script finds out about the packages. -/
structure Packages where
  /-- The directories `package/*/$package` with a description in them. -/
  confdirs : Str → List Str
  installed : Str → Bool
  oVer : Str → Str
  nVer : Str → Str
  oCk : Str → Str
  nCk : Str → Str
  /-- The former build was broken. -/
  broken : Str → Bool
  /-- For each file `package/*/$1/$1.cache` its package and the words behind `[DEP]`. -/
  cache : List (Str × List Str)

structure Traversal where
  /-- The variables that are 1. -/
  marks : List Str
  depth : Nat
  deptree : Str
  deplist : Str
  /-- The packages that are printed behind `$deptree`, the last one first. -/
  examined : List Str
  /-- `$depth` and `$deptree` before and after each call of `dep4pkg`, the last one first. -/
  calls : List ((Nat × Str) × (Nat × Str))

def blacklist : Str :=
  " 00-dirtree binutils gcc glibc glibc32 uclibc linux linux-header clang llvm musl dietlibc ".toList

def arrow : Delim := ⟨'>', by decide⟩
def blank : Delim := ⟨' ', by decide⟩

/-- `__BEEN_HERE_${package//[^a-zA-Z0-9]/_}` -/
def beenHere (package : Str) : Str := "__BEEN_HERE_".toList ++ package.map fun c =>
    if c.isAlphanum then c else '_'

def Packages.dependencies (packages : Packages) (package : Str) : List Str :=
  (packages.cache.filter fun entry => entry.1 = package).flatMap fun entry => entry.2

/-- The checks for packages that are not named on the command line. -/
def avoided (options : Options) (packages : Packages) (depth : Nat) (package : Str) : Bool :=
  depth != 0 && (pad package <:+: blacklist ||
    if !packages.installed package then options.missing == .no else options.missing == .only)

/-- The end of `dep4pkg`, behind its loop. -/
def leave (st left : Traversal) (package : Str) : Traversal :=
  let deptree := varRemove [arrow.char] package left.deptree
  let depth := left.depth - 1
  { left with deptree, depth, calls := ((st.depth, st.deptree), (depth, deptree)) :: left.calls }

def dep4pkg (packages : Packages) (addIfUpdated : Traversal → Str → Option Traversal) (st : Traversal)
    (package : Str) :
    Option Traversal :=
  ((packages.dependencies package).foldlM addIfUpdated
    { st with depth := st.depth + 1, deptree := varAppend arrow package st.deptree }).map fun left =>
    leave st left package

def addIfReq (options : Options) (packages : Packages) (addIfUpdated : Traversal → Str → Option Traversal)
    (st : Traversal)
    (package : Str) : Option Traversal :=
  if avoided options packages st.depth package then some st
  else
    let st := { st with deplist := varAppend blank package st.deplist }
    if options.deps = .indirect then dep4pkg packages addIfUpdated st package else some st

/-- `add_if_updated`; the number bounds how deep the calls are nested. -/
def addIfUpdated (options : Options) (packages : Packages) : Nat → Traversal → Str → Option Traversal
  | 0, _, _ => none
  | fuel + 1, st, package =>
    if beenHere package ∈ st.marks then some st
    else
      let st := { st with marks := beenHere package :: st.marks, examined := package :: st.examined }
      let addIfReq := addIfReq options packages (addIfUpdated options packages fuel) st package
      if (packages.confdirs package).length ≠ 1 then some st
      else if !packages.installed package then addIfReq
      else if packages.oVer package ≠ packages.nVer package ∧
        packages.nVer package ≠ "0000".toList then addIfReq
      else if !options.ignoreChksum ∧ packages.oCk package ≠ packages.nCk package then addIfReq
      else if packages.broken package then (if options.rebuild then addIfReq else some st)
      else if options.force ∧ st.depth = 0 then addIfReq
      else some st

/-- The main part, from the packages that are named to the complete list. -/
def traverse (options : Options) (packages : Packages) (fuel depth : Nat) (requested : List Str) :
    Option Traversal :=
  (requested.foldlM (addIfUpdated options packages fuel) ⟨[], depth, [], [], [], []⟩).bind fun st =>
    match options.deps with
    | .none => some st
    | .fast | .indirect =>
      (tokens (· == ' ') st.deplist).foldlM (dep4pkg packages (addIfUpdated options packages fuel)) st

end Functions

end T2SDE.Emerge
