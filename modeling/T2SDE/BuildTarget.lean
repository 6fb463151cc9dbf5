import T2SDE.BuildTree

namespace T2SDE

open Text Awk

/-- What a call of Build-Pkg does: its exit status, and which of the three files of the pair
exist when it returns. -/
structure BuildResult where
  succeeded : Bool
  log : Bool
  err : Bool
  out : Bool

/-- The settings of the target that the package loop reads. -/
structure TargetConfig where
  tree : BuildTree
  retryBroken : Bool
  continueOnErrorAfter : Nat

structure TargetState where
  files : Files
  built : List (Str × Str)
  aborted : Bool

def number (word : Str) : Nat := word.foldl (fun n c => 10 * n + (c.toNat - '0'.toNat)) 0

/-- `expr "$pkg_stages" : ".*$stagelevel.*"`, the length of the match. -/
def exprMatch (pkgStages stagelevel : Str) : Nat :=
  if stagelevel <:+: pkgStages then pkgStages.length else 0

/-- `pkgloop_package`, on the words of one line of the queue. -/
def pkgloopPackage (c : TargetConfig) (buildPkg : Str → Str → BuildResult) (args : List Str)
    (st : TargetState) : TargetState :=
  let stagelevel := field args 1
  let pkgStages := field args 3
  let pkgName := field args 6
  if exprMatch pkgStages stagelevel == 0 then st
  else
    let logs := logFile c.tree.logdir stagelevel pkgName
    let result := buildPkg stagelevel pkgName
    let files := ((st.files.set (logs "log") result.log).set (logs "err") result.err).set
      (logs "out") result.out
    let st := { st with files, built := st.built ++ [(stagelevel, pkgName)] }
    if !result.succeeded && decide (number stagelevel ≤ c.continueOnErrorAfter) then
      { st with aborted := true }
    else if !files (logs "log") && !files (logs "err") then
      { st with files := files.set (logs "err") true, aborted := true }
    else st

def commandOutput (out : List QueueLine) : Str :=
  ['\n'].intercalate (out.map fun
    | .job text => text
    | .debug text => text)

/-- `while next=...; [ "$next" ]; do pkgloop_package $next; done`, cut off after `fuel` rounds. -/
def pkgloop (c : TargetConfig) (buildPkg : Str → Str → BuildResult) :
    Nat → TargetState → Option TargetState
  | 0, _ => none
  | fuel + 1, st =>
    let next := commandOutput (createPkgQueue (c.tree.env true st.files))
    if next = [] then some st
    else
      let st := pkgloopPackage c buildPkg (split next) st
      if st.aborted then some st else pkgloop c buildPkg fuel st

/-- The log files removed before the loop: err files of the stages that are tried again, and
all out files. -/
def removedLog (c : TargetConfig) (path : Str) : Bool :=
  let logs := c.tree.logdir ++ "/".toList
  decide (logs <+: path) && !(path.drop logs.length).contains '/' &&
    (decide (".out".toList <:+ path) ||
      decide (".err".toList <:+ path) && (List.range 10).any fun y =>
        decide (digits y ++ "-".toList <+: path.drop logs.length) &&
          (c.retryBroken || decide (y ≤ c.continueOnErrorAfter)))

def pkgloopStart (c : TargetConfig) (files : Files) : TargetState :=
  { files := fun path => files path && !removedLog c path, built := [], aborted := false }

end T2SDE
