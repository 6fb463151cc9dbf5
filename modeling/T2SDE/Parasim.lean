import T2SDE.BuildTree
import T2SDE.PkgInstalled

namespace T2SDE.Parasim

open Text

section Functions

/-- `split /\s+/`; blanks in front leave an empty first field. -/
def split (line : Str) : List Str :=
  if line.head?.any Awk.space then [] :: tokens Awk.space line else tokens Awk.space line

/-- `s/^.*\s(\S+)\s*$/$1/` for a line with a newline at its end. -/
def lastField (line : Str) : Str :=
  match split line with
  | _ :: y :: fields => (y :: fields).getLast (List.cons_ne_nil y fields)
  | _ => line

/-- The value of `$_` behind `$_++`. A text that is no numeral stays a text, with the value zero. -/
def increment (s : Str) : Nat := if s ≠ [] ∧ s.all Char.isDigit then Nat.ofDigitChars 10 s 0 + 1 else 0

/-- A line of the log file that tells of a job. -/
inductive Event
  | created (qid : Str)
  | finished (qid : Str)
  deriving DecidableEq

/-- The variables, the files in `$logdir/logs_$id` and the log, the last line first. -/
structure Sim where
  freejobs : Int
  runningjobs : Int
  now : Nat
  jobs : List (Str × Nat)
  files : Files
  log : List Event

/-- The packages list, and what `keys` and `sort` do, which only order what they are given. The
order of `keys` may depend on all that was put into the table before. -/
structure Setup where
  logdir : Str
  logdir_plain : '<' ∉ logdir
  lines : List PkgLine
  distinct : (lines.map PkgLine.name).Nodup
  named : ∀ l ∈ lines, PackageName l.name
  keys : List Event → List Str → List Str
  keys_perm : ∀ log l, (keys log l).Perm l
  sort : List Str → List Str
  sort_perm : ∀ l, (sort l).Perm l

/-- `$logdir/logs_$id/$qid.*` -/
def isGlobbed (logdir qid path : Str) : Bool :=
  let front := logdir ++ "/".toList ++ qid ++ ".".toList
  front.isPrefixOf path && !(path.drop front.length).contains '/'

/-- `rm -f $logdir/logs_$id/$qid.*; touch $logdir/logs_$id/$qid.ext` -/
def refresh (logdir qid : Str) (ext : String) (files : Files) : Files :=
  Files.set (fun path => files path && !isGlobbed logdir qid path)
    (logdir ++ "/".toList ++ qid ++ ".".toList ++ ext.toList) true

def finish (logdir qid : Str) (s : Sim) : Sim :=
  { s with
    files := refresh logdir qid "log" s.files
    freejobs := s.freejobs + 1
    runningjobs := s.runningjobs - 1
    jobs := s.jobs.filter fun job => job.1 ≠ qid
    log := .finished qid :: s.log }

def start (logdir line : Str) (s : Sim) : Sim :=
  let fields := split line
  let qid := fields.getD 0 [] ++ "-".toList ++ fields.getD 5 []
  { s with
    files := refresh logdir qid "out" s.files
    jobs := s.jobs.filter (fun job => job.1 ≠ qid) ++ [(qid, s.now + increment (lastField line))]
    freejobs := s.freejobs - 1
    runningjobs := s.runningjobs + 1
    log := .created qid :: s.log }

/-- The loop for the next point in time. -/
def earliest (jobs : List (Str × Nat)) : Int :=
  jobs.foldl (fun least job => if least = -1 ∨ least > job.2 then job.2 else least) (-1)

/-- Where the program is: in the loop over the running jobs, in the loop that reads the queue, or
behind the loop. -/
inductive Phase
  | finishing (qids : List Str)
  | starting (queue : List Str)
  | over

structure Config where
  phase : Phase
  sim : Sim

def Setup.packagesFile (c : Setup) : List Str := c.lines.map PkgLine.text

/-- `scripts/Create-PkgQueue -cfg $config -logdir $logdir/logs_$id` -/
def Setup.queue (c : Setup) (files : Files) : List Str :=
  jobTexts (createPkgQueue
    { single := false, debug := false, nobrokendeps := false, logdir := c.logdir,
      packagesFile := c.packagesFile, readable := files })

/-- The end of a round. -/
def Setup.advance (c : Setup) (sim : Sim) : Config :=
  if earliest sim.jobs = -1 then ⟨.over, sim⟩
  else ⟨.finishing (c.keys sim.log (sim.jobs.map Prod.fst)), { sim with now := (earliest sim.jobs).toNat }⟩

def Setup.step (c : Setup) : Config → Config
  | ⟨.finishing (qid :: qids), sim⟩ =>
    if (sim.jobs.lookup qid).getD 0 > sim.now then ⟨.finishing qids, sim⟩
    else ⟨.finishing qids, finish c.logdir qid sim⟩
  | ⟨.finishing [], sim⟩ => ⟨.starting (c.sort (c.queue sim.files)), sim⟩
  | ⟨.starting (line :: queue), sim⟩ =>
    if sim.freejobs > 0 then ⟨.starting queue, start c.logdir line sim⟩ else c.advance sim
  | ⟨.starting [], sim⟩ => c.advance sim
  | ⟨.over, sim⟩ => ⟨.over, sim⟩

/-- The program before its loop; `Create-ParaSim` has removed the directory. -/
def initial (id : Nat) : Config :=
  ⟨.finishing [], { freejobs := id, runningjobs := 0, now := 0, jobs := [], files := noFiles, log := [] }⟩

end Functions

end T2SDE.Parasim
