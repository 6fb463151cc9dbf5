import T2SDE.DownloadNames
import T2SDE.SourceFile

namespace T2SDE.Download

open Text Endings Disk

/-- What `detect_confdir` and `parse_desc` find for a package. -/
inductive Found
  | missing
  | multiple
  | lines (lines : List Line)

/-- The files that name the downloads. -/
structure Catalog where
  package : Str → Found
  /-- the packages with a `pkg_*_{pre,post}.conf` for a package that the config has enabled -/
  extenders : Str → List Str
  targetList : Str → Option (List Line)

/-- What the loops of `packages` execute one after the other. -/
inductive Command
  | download (line : Line)
  | notFound
  | inMultipleTrees
  | noFile

def packageCommands (c : Catalog) (pkg : Str) : List Command :=
  match c.package pkg with
  | .missing => [.notFound]
  | .multiple => [.inMultipleTrees]
  -- `echo` prints one line also for a package without the tag
  | .lines [] => [.download ⟨[], [], []⟩]
  | .lines lines => lines.map .download

/-- `cut -f3 -d/` of a description file, else the name itself. -/
def packageName (arg : Str) : Str :=
  if endsWith arg ".desc".toList then
    if '/' ∈ arg then ((arg.splitOn '/')[2]?).getD [] else arg
  else arg

def argCommands (c : Catalog) (arg : Str) : List Command :=
  if "target/".toList.isPrefixOf arg then
    match c.targetList arg with
    | none => [.noFile]
    | some [] => [.noFile]
    | some lines => lines.map .download
  else (c.extenders (packageName arg)).flatMap (packageCommands c) ++ packageCommands c (packageName arg)

def packages (c : Catalog) (args : List Str) : List Command := args.flatMap (argCommands c)

/-- A command that is executed, with what happens around it and the shell before it. -/
structure Step where
  command : Command
  world : World
  before : Shell

def Step.result (o : Options) (step : Step) : Shell × Bool :=
  match step.command with
  | .download line => downloadFile o step.world line.request step.before
  | .notFound | .inMultipleTrees => (step.before, false)
  | .noFile => (step.before, true)

/-- Another directory, the mirror or the original location has the file, of the right type. -/
def arrives (o : Options) (w : World) (req : Request) (s : Shell) : Bool :=
  let bzfile := bz2filename req.gzfile
  let original := delivers w w.fromOrigin (makeUrl (askedLocation req.location) req.gzfile) req.gzfile bzfile
  match w.altfile, useMirror o bzfile with
  | some altfile, _ => s.nonempty altfile
  | none, some mirror =>
    if succeeds w w.fromMirror (mirrorUrl mirror bzfile) then
      delivers w w.fromMirror (mirrorUrl mirror bzfile) bzfile bzfile
    else original
  | none, none => original

section Calls

variable {o : Options} {w : World} {req : Request} {s : Shell} {name : Str}

end Calls

section Runs

variable {o : Options} {calls : List (Command × World)} {s : Shell}

end Runs

end T2SDE.Download
