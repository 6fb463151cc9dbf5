import Mathlib.Data.List.Forall2
import T2SDE.FlLog
import T2SDE.Lib.CString
import T2SDE.Lib.FileTree
import T2SDE.Lib.Scanf

namespace T2SDE.FlStparse

open Text PathName FileTree Scanf
open FlWrapper (fgets)

section Program

def maxProcs : Nat := 512

structure Proc where
  pid : Int
  cwd : Str

/-- The first entry with a pid is overwritten. -/
def putproc (pid : Int) (new : Proc) : List Proc → Option (List Proc)
  | [] => none
  | q :: procs => if q.pid = pid then some (new :: procs) else (putproc pid new procs).map (q :: ·)

def newproc (pid : Int) (cwd : Str) : List Proc → Option (List Proc) := putproc 0 ⟨pid, cwd⟩

def getproc (pid : Int) (procs : List Proc) : Option Proc := procs.find? (·.pid = pid)

def setproc (pid : Int) (cwd : Str) : List Proc → Option (List Proc) := putproc pid ⟨pid, cwd⟩

def freeproc (pid : Int) : List Proc → Option (List Proc) := putproc pid ⟨0, []⟩

def forkFormats : List String :=
  ["%d fork() = %d", "%d vfork() = %d", "%d <... fork resumed> ) = %d", "%d <... vfork resumed> ) = %d"]

def exitFormats : List String := ["%d _exit(%d", "%d exit_group(%d"]

def chdirFormats : List String := ["%d chdir(\"%[^\"]"]

def openFormats : List String := ["%d open(\"%[^\"]\", %s"]

def pathFormats : List String := ["%d mkdir(\"%[^\"]\", ", "%d utime(\"%[^\"]\", "]

def pairFormats : List String :=
  ["%d link(\"%[^\"]\", \"%[^\"]\"", "%d symlink(\"%[^\"]\", \"%[^\"]\"", "%d rename(\"%[^\"]\", \"%[^\"]\""]

/-- The values of the first format for which there are so many. -/
def matched (n : Nat) : List String → Str → Option (List Value)
  | [], _ => none
  | format :: formats, line =>
    if (sscanf format line).length = n then some (sscanf format line) else matched n formats line

/-- What a line has `main` do. -/
inductive Action
  | fork (pid newpid : Int)
  | exit (pid : Int)
  | chdir (pid : Int) (buf1 : Str)
  | openFile (pid : Int) (buf1 buf2 : Str)
  | path (pid : Int) (buf1 : Str)
  | skip
  deriving DecidableEq

def action (line : Str) : Action :=
  match matched 2 forkFormats line with
  | some [.num pid, .num newpid] => .fork pid newpid
  | _ =>
  match matched 2 exitFormats line with
  | some [.num pid, .num _] => .exit pid
  | _ =>
  match matched 2 chdirFormats line with
  | some [.num pid, .str buf1] => .chdir pid buf1
  | _ =>
  match matched 3 openFormats line with
  | some [.num pid, .str buf1, .str buf2] => .openFile pid buf1 buf2
  | _ =>
  match (matched 2 pathFormats line).or (matched 3 pairFormats line) with
  | some [.num pid, .str buf1] => .path pid buf1
  | some [.num pid, .str _, .str buf1] => .path pid buf1
  | _ => .skip

/-- The table, the own working directory and what is in the logs. -/
structure State where
  procs : List Proc
  own : Loc
  wlog : List (Int × Str)
  rlog : List (Int × Str)

/-- A line for a log. -/
def logLine (procs : List Proc) (pid : Int) (buf1 : Str) : Option (Int × Str) :=
  if buf1.head? = some '/' then some (pid, buf1)
  else (getproc pid procs).map fun q => (pid, (if q.cwd = ['/'] then [] else q.cwd) ++ '/' :: buf1)

/-- `strstr` finds something. -/
def strstr (buf : Str) (word : String) : Bool := decide (word.toList <:+: buf)

/-- An action; there is no state behind an `exit(1)`. -/
def act (t : Tree) (s : State) : Action → Option State
  | .fork pid newpid =>
    (getproc pid s.procs).bind fun q =>
      (newproc newpid q.cwd s.procs).map fun procs => { s with procs := procs }
  | .exit pid => (freeproc pid s.procs).map fun procs => { s with procs := procs }
  | .chdir pid buf1 =>
    (getproc pid s.procs).bind fun q =>
      let dir := (FileTree.chdir t s.own q.cwd).getD s.own
      let own := (FileTree.chdir t dir buf1).getD dir
      (setproc pid (absolute own) s.procs).map fun procs => { s with procs := procs, own := own }
  | .openFile pid buf1 buf2 =>
    if strstr buf2 "O_DIRECTORY" then some s
    else (logLine s.procs pid buf1).map fun l =>
      if strstr buf2 "O_RDONLY" then { s with rlog := s.rlog ++ [l] } else { s with wlog := s.wlog ++ [l] }
  | .path pid buf1 => (logLine s.procs pid buf1).map fun l => { s with wlog := s.wlog ++ [l] }
  | .skip => some s

/-- What `fgets(line, 1024, stdin)` reads, one time after the other. -/
def reads : Nat → Str → List Str
  | 0, _ => []
  | fuel + 1, s => if s = [] then [] else (fgets 1023 s).1 :: reads fuel (fgets 1023 s).2

/-- `fl_stparse`, started in a directory. -/
def stparse (t : Tree) (start : Loc) (input : Str) : Option State :=
  match reads input.length input with
  | [] => none
  | line :: lines =>
    match sscanf "%d" line with
    | [.num pid] =>
      (newproc pid (absolute start) (List.replicate maxProcs ⟨0, []⟩)).bind fun procs =>
        (line :: lines).foldlM (fun s line => act t s (action line)) ⟨procs, start, [], []⟩
    | _ => none

end Program

section Trace

inductive ForkCall
  | fork
  | vfork
  | forkResumed
  | vforkResumed

inductive ExitCall
  | exit
  | exitGroup

inductive PathCall
  | openFile
  | mkdir
  | utime

inductive PairCall
  | link
  | symlink
  | rename
  deriving DecidableEq

def ForkCall.text : ForkCall → String
  | fork => "fork()"
  | vfork => "vfork()"
  | forkResumed => "<... fork resumed> )"
  | vforkResumed => "<... vfork resumed> )"

def ExitCall.name : ExitCall → String
  | exit => "_exit"
  | exitGroup => "exit_group"

def PathCall.name : PathCall → String
  | openFile => "open"
  | mkdir => "mkdir"
  | utime => "utime"

def PairCall.name : PairCall → String
  | link => "link"
  | symlink => "symlink"
  | rename => "rename"

/-- What happens, with what `strace` shows of it; a path is one as it is shown. -/
inductive Event
  | fork (p q : Nat) (call : ForkCall) (pad : Nat)
  /-- the line of this fork comes behind lines of the child -/
  | early (p q : Nat)
  | late (p q : Nat) (call : ForkCall) (pad : Nat)
  | failedFork (p : Nat) (call : ForkCall) (pad : Nat) (rest : Str)
  | chdir (p : Nat) (path : Str) (result : Option Loc) (rest : Str)
  | pathCall (p : Nat) (call : PathCall) (path rest : Str)
  /-- with the names that directories have afterwards -/
  | pairCall (p : Nat) (call : PairCall) (old new rest : Str) (moved : Loc → Loc)
  | exit (p : Nat) (call : ExitCall) (status : Int) (rest : Str)
  | other (p : Nat) (text : Str)

def pidField (p : Nat) : Str := digits p ++ List.replicate (5 - (digits p).length) ' ' ++ [' ']

def forkText (call : ForkCall) (pad : Nat) (result : Int) : Str :=
  call.text.toList ++ List.replicate (pad + 1) ' ' ++ '=' :: ' ' :: signed result

def Event.lines : Event → List Str
  | fork p q call pad | late p q call pad => [pidField p ++ forkText call pad q]
  | early _ _ => []
  | failedFork p call pad rest => [pidField p ++ (forkText call pad (-1) ++ ' ' :: rest)]
  | chdir p path _ rest => [pidField p ++ ("chdir(\"".toList ++ path ++ '"' :: rest)]
  | pathCall p call path rest => [pidField p ++ (call.name.toList ++ '(' :: '"' :: path ++ '"' :: rest)]
  | pairCall p call old new rest _ =>
    [pidField p ++ (call.name.toList ++ '(' :: '"' :: old ++ '"' :: ',' :: ' ' :: '"' :: new ++ '"' :: rest)]
  | exit p call status rest => [pidField p ++ (call.name.toList ++ '(' :: signed status ++ rest)]
  | other p text => [pidField p ++ text]

def traceText (es : List Event) : Str := es.flatMap fun e => e.lines.flatMap (· ++ ['\n'])

/-- A process that lives; whether the trace, or the start of `fl_stparse`, tells where it is. -/
structure Live where
  pid : Nat
  cwd : Loc
  known : Bool

/-- A file operation: the working directory at that moment, and the paths of the call. -/
structure Op where
  pid : Nat
  cwd : Loc
  args : List Str

/-- `forking`: the forks whose line is still to come. -/
structure World where
  live : List Live
  forking : List (Nat × Nat)
  ops : List Op

/-- One process is there, for which strace traces, and `fl_stparse` is started somewhere. -/
def World.start (start : Loc) (pid : Nat) (cwd : Loc) : World where
  live := [⟨pid, cwd, start = cwd⟩]
  forking := []
  ops := []

/-- A process that does not wait for its fork, and the other ones. -/
def World.Runs (w : World) (l : Live) (others : List Live) : Prop :=
  w.live.Perm (l :: others) ∧ ∀ q, (l.pid, q) ∉ w.forking

def IsPid (p : Nat) : Prop := 0 < p ∧ p < 2147483648

inductive Step : World → Event → World → Prop
  | fork {w : World} {l : Live} {others : List Live} {q : Nat} (call : ForkCall) (pad : Nat)
      (h : w.Runs l others) (hq : IsPid q) (hfresh : ∀ o ∈ w.live, o.pid ≠ q) :
      Step w (.fork l.pid q call pad) { w with live := { l with pid := q } :: w.live }
  | early {w : World} {l : Live} {others : List Live} {q : Nat}
      (h : w.Runs l others) (hq : IsPid q) (hfresh : ∀ o ∈ w.live, o.pid ≠ q) :
      Step w (.early l.pid q)
        { w with live := { l with pid := q } :: w.live, forking := (l.pid, q) :: w.forking }
  | late {w : World} {p q : Nat} (call : ForkCall) (pad : Nat) (h : (p, q) ∈ w.forking) :
      Step w (.late p q call pad) { w with forking := w.forking.erase (p, q) }
  | failedFork {w : World} {l : Live} {others : List Live} (call : ForkCall) (pad : Nat) (rest : Str)
      (h : w.Runs l others) : Step w (.failedFork l.pid call pad rest) w
  | chdir {w : World} {l : Live} {others : List Live} (path : Str) (result : Option Loc) (rest : Str)
      (h : w.Runs l others) :
      Step w (.chdir l.pid path result rest)
        { w with live := { l with
            cwd := result.getD l.cwd
            known := l.known || (result.isSome && path.head? == some '/') } :: others }
  | pathCall {w : World} {l : Live} {others : List Live} (call : PathCall) (path rest : Str)
      (h : w.Runs l others) :
      Step w (.pathCall l.pid call path rest) { w with ops := w.ops ++ [⟨l.pid, l.cwd, [path]⟩] }
  | pairCall {w : World} {l : Live} {others : List Live} (call : PairCall) (old new rest : Str)
      (moved : Loc → Loc) (h : w.Runs l others) (hmoved : call ≠ .rename → moved = id) :
      Step w (.pairCall l.pid call old new rest moved)
        { w with
          live := w.live.map fun o => { o with cwd := moved o.cwd }
          ops := w.ops ++ [⟨l.pid, l.cwd, [old, new]⟩] }
  | exit {w : World} {l : Live} {others : List Live} (call : ExitCall) (status : Int) {rest : Str}
      (h : w.Runs l others) (hrest : ∀ c, rest.head? = some c → c.isDigit = false) :
      Step w (.exit l.pid call status rest) { w with live := others }
  | other {w : World} {l : Live} {others : List Live} (text : Str) (h : w.Runs l others) :
      Step w (.other l.pid text) w

/-- The steps of a trace, each of which is as it should be. -/
inductive Run (Good : World → Event → Prop) : World → List Event → World → Prop
  | done (w : World) : Run Good w [] w
  | step {w w' w'' : World} {e : Event} {es : List Event} (h : Step w e w') (hgood : Good w e)
      (hline : ∀ line ∈ e.lines, '\n' ∉ line ∧ CString.nul ∉ line) (hrun : Run Good w' es w'') :
      Run Good w (e :: es) w''

/-- A line of a log is that of a file operation, with its directory in front of a relative path. -/
def Prefixed (line : Int × Str) (op : Op) : Prop :=
  line.1 = op.pid ∧ ∃ name, ((∀ arg ∈ op.args, '"' ∉ arg) → op.args.getLast? = some name) ∧
    line.2 = if name.head? = some '/' then name else absolute (op.cwd ++ [name])

/-- No abort, one entry for each live process, and the right directories in the logs. -/
def Holds (t : Tree) (start : Loc) (es : List Event) (w : World) : Prop :=
  ∃ s, stparse t start (traceText es) = some s ∧
    (∀ p : Int, p ≠ 0 → (s.procs.map (·.pid)).count p = if ∃ l ∈ w.live, (l.pid : Int) = p then 1 else 0) ∧
    List.SublistForall₂ Prefixed s.wlog w.ops ∧ List.SublistForall₂ Prefixed s.rlog w.ops

/-- `chdir` leads to the same directory again; for an unknown one only an absolute path has to. -/
def SameAgain (t : Tree) (l : Live) (path : Str) (result : Option Loc) : Prop :=
  if l.known = true then (FileTree.chdir t l.cwd path).getD l.cwd = result.getD l.cwd
  else path.head? = some '/' → result.isSome → FileTree.chdir t l.cwd path = result

/-- What the program needs of a step: room in the table, the line of a fork in front of those of the
child, no failed fork, known directories, and lines that fit into the buffer. -/
def Meets (t : Tree) (w : World) (e : Event) : Prop :=
  match e with
  | .fork _ _ _ _ => w.live.length < maxProcs ∧ ∀ line ∈ e.lines, line.length < 1023
  | .early _ _ | .late _ _ _ _ | .failedFork _ _ _ _ => False
  | .chdir p path result _ =>
    (∀ l ∈ w.live, l.pid = p → SameAgain t l (path.takeWhile (· != '"')) result) ∧
      ∀ line ∈ e.lines, line.length < 1023
  | .pathCall p _ path _ =>
    (∀ l ∈ w.live, l.pid = p → l.known = true ∨ path.head? = some '/') ∧ ∀ line ∈ e.lines, line.length < 1023
  | .pairCall p _ old new _ moved =>
    (∀ l ∈ w.live, l.pid = p → l.known = true ∨ '"' ∉ old ∧ '"' ∉ new ∧ new.head? = some '/') ∧
      (∀ l ∈ w.live, l.known = true → moved l.cwd = l.cwd) ∧ ∀ line ∈ e.lines, line.length < 1023
  | .exit _ _ _ _ => ∀ line ∈ e.lines, line.length < 1023
  | .other _ _ =>
    ∀ line ∈ e.lines, ∀ piece ∈ reads (line.length + 1) (line ++ ['\n']), action piece = .skip

end Trace

section Formats

variable {n p : Nat} {format : String} {formats : List String} {heads : List (Option Char)} {b b' : Char}
  {s path rest call : Str} {ds : List Directive} {letters : List Char}

/-- The first character of a format behind the pid. -/
def firstChar (format : String) : Option Char :=
  match directives format.toList with
  | .num :: .white :: .lit c :: _ => some c
  | _ => none

theorem firstChar_eq {c : Char} (h : format.toList = '%' :: 'd' :: ' ' :: c :: s) (hc : c ≠ '%')
    (hspace : space c = false) : firstChar format = some c := by
  have hd : directives ('%' :: 'd' :: ' ' :: c :: s) = .num :: .white :: directives (c :: s) := rfl
  rw [firstChar, h, hd, directives_char hc, hspace]
  rfl

theorem fork_heads : forkFormats.map firstChar = [some 'f', some 'v', some '<', some '<'] := by
  rw [forkFormats, List.map_cons, List.map_cons, List.map_cons, List.map_cons, List.map_nil,
    firstChar_eq String.toList_ofList (by decide) rfl,
    firstChar_eq String.toList_ofList (by decide) rfl,
    firstChar_eq String.toList_ofList (by decide) rfl,
    firstChar_eq String.toList_ofList (by decide) rfl]

theorem exit_heads : exitFormats.map firstChar = [some '_', some 'e'] := by
  rw [exitFormats, List.map_cons, List.map_cons, List.map_nil,
    firstChar_eq String.toList_ofList (by decide) rfl,
    firstChar_eq String.toList_ofList (by decide) rfl]

theorem chdir_heads : chdirFormats.map firstChar = [some 'c'] := by
  rw [chdirFormats, List.map_cons, List.map_nil,
    firstChar_eq String.toList_ofList (by decide) rfl]

theorem open_heads : openFormats.map firstChar = [some 'o'] := by
  rw [openFormats, List.map_cons, List.map_nil,
    firstChar_eq String.toList_ofList (by decide) rfl]

theorem path_heads : pathFormats.map firstChar = [some 'm', some 'u'] := by
  rw [pathFormats, List.map_cons, List.map_cons, List.map_nil,
    firstChar_eq String.toList_ofList (by decide) rfl,
    firstChar_eq String.toList_ofList (by decide) rfl]

theorem pair_heads : pairFormats.map firstChar = [some 'l', some 's', some 'r'] := by
  rw [pairFormats, List.map_cons, List.map_cons, List.map_cons, List.map_nil,
    firstChar_eq String.toList_ofList (by decide) rfl,
    firstChar_eq String.toList_ofList (by decide) rfl,
    firstChar_eq String.toList_ofList (by decide) rfl]

/-- The pid is read, and the format goes on behind it. -/
theorem scan_field (hs : ∀ c, s.head? = some c → space c = false) (p : Nat) :
    scan (.num :: .white :: ds) (pidField p ++ s) = .num p :: scan ds s := by
  have hfield : pidField p ++ s =
      signed p ++ ((List.replicate (5 - (digits p).length) ' ' ++ [' ']) ++ s) := by
    simp [pidField, signed]
  have hblanks : ∀ c ∈ List.replicate (5 - (digits p).length) ' ' ++ [' '], space c = true := by
    intro c hc
    simp only [List.mem_append, List.mem_replicate, List.mem_singleton] at hc
    obtain rfl : c = ' ' := by tauto
    rfl
  have hnum : ∀ c, ((List.replicate (5 - (digits p).length) ' ' ++ [' ']) ++ s).head? = some c →
      c.isDigit = false := by
    intro c hc
    cases hk : 5 - (digits p).length with
    | zero =>
      rw [hk] at hc
      obtain rfl : ' ' = c := Option.some.inj hc
      rfl
    | succ k =>
      rw [hk] at hc
      obtain rfl : ' ' = c := Option.some.inj hc
      rfl
  rw [hfield, scan_num (p : Int) hnum, scan_white hblanks hs]

theorem sscanf_field (hd : directives format.toList = .num :: .white :: ds)
    (hs : ∀ c, s.head? = some c → space c = false) (p : Nat) :
    sscanf format (pidField p ++ s) = .num p :: scan ds s := by
  rw [sscanf, hd, scan_field hs]

/-- A format for another call gets no further than the pid. -/
theorem sscanf_foreign (hfirst : firstChar format = some b') (hne : b ≠ b') (hb : space b = false) (p : Nat) :
    sscanf format (pidField p ++ b :: s) = [.num p] := by
  unfold firstChar at hfirst
  split at hfirst
  next c ds hd =>
    obtain rfl := Option.some.inj hfirst
    rw [sscanf_field hd (by simpa using hb), scan_lit_ne hne]
  next => cases hfirst

theorem matched_foreign (hheads : formats.map firstChar = heads) (hn : 1 < n) (hb : space b = false)
    (hmem : some b ∉ heads) (hnone : none ∉ heads) (p : Nat) :
    matched n formats (pidField p ++ b :: s) = none := by
  subst hheads
  induction formats with
  | nil => rfl
  | cons format formats ih =>
    rw [List.map_cons, List.mem_cons, not_or] at hmem hnone
    obtain ⟨b', hb'⟩ := Option.ne_none_iff_exists'.mp fun h => hnone.1 h.symm
    have hne : b ≠ b' := fun h => hmem.1 (by rw [hb', h])
    have hscan := sscanf_foreign (s := s) hb' hne hb p
    have hlength : ([Value.num p] : List Value).length ≠ n := Nat.ne_of_lt hn
    rw [matched, hscan, if_neg hlength]
    exact ih hmem.2 hnone.2

/-- A format with the right number of values is taken. -/
theorem matched_hit (hlength : (sscanf format s).length = n) :
    matched n (format :: formats) s = some (sscanf format s) := by
  rw [matched, if_pos hlength]

theorem matched_next (hlength : (sscanf format s).length ≠ n) :
    matched n (format :: formats) s = matched n formats s := by
  rw [matched, if_neg hlength]

theorem scan_blank (hs : ∀ c, s.head? = some c → space c = false) :
    scan (.white :: ds) (' ' :: s) = scan ds s :=
  scan_white (show ∀ c ∈ [' '], space c = true by simp [space]) hs

/-- The result of a fork, behind what is shown of the call. -/
theorem scan_result (pad : Nat) (r : Int) (hrest : ∀ c, rest.head? = some c → c.isDigit = false) :
    scan [.white, .lit '=', .white, .num] (List.replicate (pad + 1) ' ' ++ '=' :: ' ' :: (signed r ++ rest)) =
      [.num r] := by
  have hblanks : ∀ c ∈ List.replicate (pad + 1) ' ', space c = true := by
    intro c hc
    rw [(List.mem_replicate.mp hc).2]
    rfl
  have hsign : ∀ c, ('=' :: ' ' :: (signed r ++ rest)).head? = some c → space c = false := by
    rintro c hc
    obtain rfl : '=' = c := Option.some.inj hc
    rfl
  rw [scan_white hblanks hsign, scan, if_pos rfl, scan_blank (fun c hc => signed_head r hc),
    scan_num r hrest, scan]

theorem forkText_append (call : ForkCall) (pad : Nat) (r : Int) (rest : Str) :
    forkText call pad r ++ rest =
      call.text.toList ++ (List.replicate (pad + 1) ' ' ++ '=' :: ' ' :: (signed r ++ rest)) := by
  simp [forkText]

/-- The directives of the formats for a fork that is shown whole. -/
theorem fork_directives : directives "%d fork() = %d".toList =
    .num :: .white :: ("fork()".toList.map .lit ++ [.white, .lit '=', .white, .num]) := by
  repeat rw [String.toList_ofList]
  rfl

theorem vfork_directives : directives "%d vfork() = %d".toList =
    .num :: .white :: ("vfork()".toList.map .lit ++ [.white, .lit '=', .white, .num]) := by
  repeat rw [String.toList_ofList]
  rfl

/-- What the formats for the end of a fork have behind the pid. -/
def resumed (call : Str) (ds : List Directive) : List Directive :=
  "<...".toList.map .lit ++ .white :: (call.map .lit ++
    .white :: ("resumed>".toList.map .lit ++ .white :: .lit ')' :: ds))

theorem resumed_eq (call : Str) (ds : List Directive) : resumed call ds =
    "<...".toList.map .lit ++ .white :: (call.map .lit ++
      .white :: ("resumed>".toList.map .lit ++ .white :: .lit ')' :: ds)) := rfl

theorem forkResumed_directives : directives "%d <... fork resumed> ) = %d".toList =
    .num :: .white :: resumed ['f', 'o', 'r', 'k'] [.white, .lit '=', .white, .num] := by
  rw [resumed_eq]
  repeat rw [String.toList_ofList]
  rfl

theorem vforkResumed_directives : directives "%d <... vfork resumed> ) = %d".toList =
    .num :: .white :: resumed ['v', 'f', 'o', 'r', 'k'] [.white, .lit '=', .white, .num] := by
  rw [resumed_eq]
  repeat rw [String.toList_ofList]
  rfl

theorem resumed_text (call : Str) (s : Str) :
    ("<... ".toList ++ call ++ " resumed> )".toList) ++ s =
      "<...".toList ++ ' ' :: (call ++ ' ' :: ("resumed>".toList ++ ' ' :: ')' :: s)) := by
  repeat rw [String.toList_ofList]
  simp

theorem scan_resumed {call : Str} {c : Char} (hc : space c = false) :
    scan (resumed (c :: call) ds) (("<... ".toList ++ (c :: call) ++ " resumed> )".toList) ++ s) =
    scan ds s := by
  have hcall : ∀ d, (c :: call ++ ' ' :: ("resumed>".toList ++ ' ' :: ')' :: s)).head? = some d →
      space d = false := by
    intro d hd
    rwa [← Option.some.inj hd]
  have hresumed : ∀ d, ("resumed>".toList ++ ' ' :: ')' :: s).head? = some d → space d = false := by
    rw [String.toList_ofList]
    intro d hd
    rw [← Option.some.inj hd]
    rfl
  have hclose : ∀ d, (')' :: s).head? = some d → space d = false := by
    intro d hd
    rw [← Option.some.inj hd]
    rfl
  rw [resumed_text, resumed_eq, scan_lits, scan_blank hcall, scan_lits, scan_blank hresumed, scan_lits,
    scan_blank hclose, scan, if_pos rfl]

theorem scan_resumed_ne {call other : Str} {c d : Char} (hd : space d = false) (hne : d ≠ c) :
    scan (resumed (c :: call) ds) (("<... ".toList ++ (d :: other) ++ " resumed> )".toList) ++ s) = [] := by
  have hother : ∀ b, (d :: other ++ ' ' :: ("resumed>".toList ++ ' ' :: ')' :: s)).head? = some b →
      space b = false := by
    intro b hb
    rwa [← Option.some.inj hb]
  rw [resumed_text, resumed_eq, scan_lits, scan_blank hother]
  exact scan_lit_ne hne

theorem resumed_texts :
    ForkCall.forkResumed.text.toList = "<... ".toList ++ ['f', 'o', 'r', 'k'] ++ " resumed> )".toList ∧
    ForkCall.vforkResumed.text.toList = "<... ".toList ++ ['v', 'f', 'o', 'r', 'k'] ++
    " resumed> )".toList := by
  rw [ForkCall.text, ForkCall.text]
  repeat rw [String.toList_ofList]
  exact ⟨rfl, rfl⟩

theorem fork_text_head (call : ForkCall) : ∀ c, (call.text.toList ++ s).head? = some c → space c = false := by
  cases call <;> rw [ForkCall.text, String.toList_ofList] <;> intro c hc <;> rw [← Option.some.inj hc] <;> rfl

theorem matched_fork (call : ForkCall) (pad : Nat) (r : Int)
    (hrest : ∀ c, rest.head? = some c → c.isDigit = false) (p : Nat) :
    matched 2 forkFormats (pidField p ++ (forkText call pad r ++ rest)) = some [.num p, .num r] := by
  have hresult := scan_result pad r hrest
  rw [forkText_append]
  generalize List.replicate (pad + 1) ' ' ++ '=' :: ' ' :: (signed r ++ rest) = s at hresult ⊢
  have hhead := fork_text_head (s := s) call
  have hhit {format : String} (formats : List String)
      (h : sscanf format (pidField p ++ (call.text.toList ++ s)) = [.num p, .num r]) :
      matched 2 (format :: formats) (pidField p ++ (call.text.toList ++ s)) = some [.num p, .num r] := by
    rw [matched_hit (by rw [h]; rfl), h]
  have hnext {format : String} (formats : List String)
      (h : sscanf format (pidField p ++ (call.text.toList ++ s)) = [.num p]) :
      matched 2 (format :: formats) (pidField p ++ (call.text.toList ++ s)) =
        matched 2 formats (pidField p ++ (call.text.toList ++ s)) :=
    matched_next (by rw [h, List.length_singleton]; decide)
  have hfork : firstChar "%d fork() = %d" = some 'f' := (List.cons.inj fork_heads).1
  have hvfork : firstChar "%d vfork() = %d" = some 'v' := (List.cons.inj (List.cons.inj fork_heads).2).1
  rw [forkFormats]
  cases call with
  | fork =>
    have hscan : sscanf "%d fork() = %d" (pidField p ++ (ForkCall.fork.text.toList ++ s)) =
      [.num p, .num r] := by
      rw [sscanf_field fork_directives hhead, ForkCall.text, scan_lits, hresult]
    exact hhit _ hscan
  | vfork =>
    have hforeign : sscanf "%d fork() = %d" (pidField p ++ (ForkCall.vfork.text.toList ++ s)) = [.num p] := by
      rw [ForkCall.text, String.toList_ofList]
      exact sscanf_foreign hfork (by decide) rfl p
    have hscan : sscanf "%d vfork() = %d" (pidField p ++ (ForkCall.vfork.text.toList ++ s)) =
      [.num p, .num r] := by
      rw [sscanf_field vfork_directives hhead, ForkCall.text, scan_lits, hresult]
    rw [hnext _ hforeign, hhit _ hscan]
  | forkResumed =>
    have hforeign {format : String} {c : Char} (hfirst : firstChar format = some c) (hc : '<' ≠ c) :
        sscanf format (pidField p ++ (ForkCall.forkResumed.text.toList ++ s)) = [.num p] := by
      rw [ForkCall.text, String.toList_ofList]
      exact sscanf_foreign hfirst hc rfl p
    have hscan : sscanf "%d <... fork resumed> ) = %d"
        (pidField p ++ (ForkCall.forkResumed.text.toList ++ s)) = [.num p, .num r] := by
      rw [sscanf_field forkResumed_directives hhead, resumed_texts.1, scan_resumed rfl, hresult]
    rw [hnext _ (hforeign hfork (by decide)), hnext _ (hforeign hvfork (by decide)), hhit _ hscan]
  | vforkResumed =>
    have hforeign {format : String} {c : Char} (hfirst : firstChar format = some c) (hc : '<' ≠ c) :
        sscanf format (pidField p ++ (ForkCall.vforkResumed.text.toList ++ s)) = [.num p] := by
      rw [ForkCall.text, String.toList_ofList]
      exact sscanf_foreign hfirst hc rfl p
    have hother : sscanf "%d <... fork resumed> ) = %d"
        (pidField p ++ (ForkCall.vforkResumed.text.toList ++ s)) = [.num p] := by
      rw [sscanf_field forkResumed_directives hhead, resumed_texts.2, scan_resumed_ne rfl (by decide)]
    have hscan : sscanf "%d <... vfork resumed> ) = %d"
        (pidField p ++ (ForkCall.vforkResumed.text.toList ++ s)) = [.num p, .num r] := by
      rw [sscanf_field vforkResumed_directives hhead, resumed_texts.2, scan_resumed rfl, hresult]
    rw [hnext _ (hforeign hfork (by decide)), hnext _ (hforeign hvfork (by decide)), hnext _ hother,
      hhit _ hscan]

theorem action_fork (call : ForkCall) (pad : Nat) (r : Int)
    (hrest : ∀ c, rest.head? = some c → c.isDigit = false) (p : Nat) :
    action (pidField p ++ (forkText call pad r ++ rest)) = .fork p r := by
  rw [action, matched_fork call pad r hrest]

/-- Of formats for different calls, the one for this call decides. -/
theorem matched_own (hheads : formats.map firstChar = heads) (hnodup : heads.Nodup) (hnone : none ∉ heads)
    (hmem : format ∈ formats) (hfirst : firstChar format = some b) (hb : space b = false) (hn : 1 < n)
    (p : Nat) :
    matched n formats (pidField p ++ b :: s) =
      if (sscanf format (pidField p ++ b :: s)).length = n then some (sscanf format (pidField p ++ b :: s))
      else none := by
  subst hheads
  induction formats with
  | nil => cases hmem
  | cons other formats ih =>
    rw [List.map_cons, List.nodup_cons] at hnodup
    rw [List.map_cons, List.mem_cons, not_or] at hnone
    rcases List.mem_cons.mp hmem with rfl | hmem
    · have hrest : matched n formats (pidField p ++ b :: s) = none :=
        matched_foreign rfl hn hb (hfirst ▸ hnodup.1) hnone.2 p
      rw [matched, hrest]
    · obtain ⟨b', hb'⟩ := Option.ne_none_iff_exists'.mp fun h => hnone.1 h.symm
      have hne : b ≠ b' := by
        rintro rfl
        exact hnodup.1 (List.mem_map.mpr ⟨format, hmem, by rw [hfirst, hb']⟩)
      have hscan := sscanf_foreign (s := s) hb' hne hb p
      have hlength : (sscanf other (pidField p ++ b :: s)).length ≠ n := by
        rw [hscan]
        exact Nat.ne_of_lt hn
      rw [matched_next hlength]
      exact ih hmem hnodup.2 hnone.2

/-- The formats have one for a call, which begins with one of the letters and goes on behind it. -/
def Calls (formats : List String) (letters : List Char) (call : Str) (ds : List Directive) : Prop :=
  ∃ b w format, call = b :: w ∧ b ∈ letters ∧ format ∈ formats ∧
    directives format.toList = .num :: .white :: (call.map .lit ++ ds)

theorem exit_calls (call : ExitCall) : Calls exitFormats ['_', 'e'] (call.name.toList ++ ['(']) [.num] := by
  cases call with
  | exit =>
    refine ⟨'_', "exit(".toList, "%d _exit(%d", ?_, .head _, .head _, ?_⟩
    · rw [ExitCall.name, String.toList_ofList, String.toList_ofList, List.cons_append]
      rfl
    · rw [ExitCall.name, String.toList_ofList, String.toList_ofList]
      rfl
  | exitGroup =>
    refine ⟨'e', "xit_group(".toList, "%d exit_group(%d", ?_, .tail _ (.head _), .tail _ (.head _), ?_⟩
    · rw [ExitCall.name, String.toList_ofList, String.toList_ofList, List.cons_append]
      rfl
    · rw [ExitCall.name, String.toList_ofList, String.toList_ofList]
      rfl

theorem chdir_calls : Calls chdirFormats ['c'] "chdir(\"".toList [.upTo '"'] := by
  refine ⟨'c', "hdir(\"".toList, "%d chdir(\"%[^\"]", ?_, .head _, .head _, ?_⟩
  · rw [String.toList_ofList, String.toList_ofList]
  · rw [String.toList_ofList, String.toList_ofList]
    rfl

theorem open_calls : Calls openFormats ['o'] (PathCall.openFile.name.toList ++ ['(', '"'])
    [.upTo '"', .lit '"', .lit ',', .white, .word] := by
  refine ⟨'o', "pen(\"".toList, "%d open(\"%[^\"]\", %s", ?_, .head _, .head _, ?_⟩
  · rw [PathCall.name, String.toList_ofList, String.toList_ofList, List.cons_append]
    rfl
  · rw [PathCall.name, String.toList_ofList, String.toList_ofList]
    rfl

theorem path_calls {call : PathCall} (h : call ≠ .openFile) :
    Calls pathFormats ['m', 'u'] (call.name.toList ++ ['(', '"']) [.upTo '"', .lit '"', .lit ',',
    .white] := by
  cases call with
  | openFile => exact absurd rfl h
  | mkdir =>
    refine ⟨'m', "kdir(\"".toList, "%d mkdir(\"%[^\"]\", ", ?_, .head _, .head _, ?_⟩
    · rw [PathCall.name, String.toList_ofList, String.toList_ofList, List.cons_append]
      rfl
    · rw [PathCall.name, String.toList_ofList, String.toList_ofList]
      rfl
  | utime =>
    refine ⟨'u', "time(\"".toList, "%d utime(\"%[^\"]\", ", ?_, .tail _ (.head _), .tail _ (.head _), ?_⟩
    · rw [PathCall.name, String.toList_ofList, String.toList_ofList, List.cons_append]
      rfl
    · rw [PathCall.name, String.toList_ofList, String.toList_ofList]
      rfl

/-- What the formats for two paths have behind the first quotation mark. -/
def pairTail : List Directive := [.upTo '"', .lit '"', .lit ',', .white, .lit '"', .upTo '"', .lit '"']

theorem pair_calls (call : PairCall) :
    Calls pairFormats ['l', 's', 'r'] (call.name.toList ++ ['(', '"']) pairTail := by
  cases call with
  | link =>
    refine ⟨'l', "ink(\"".toList, "%d link(\"%[^\"]\", \"%[^\"]\"", ?_, .head _, .head _, ?_⟩
    · rw [PairCall.name, String.toList_ofList, String.toList_ofList, List.cons_append]
      rfl
    · rw [PairCall.name, String.toList_ofList, String.toList_ofList]
      rfl
  | symlink =>
    refine ⟨'s', "ymlink(\"".toList, "%d symlink(\"%[^\"]\", \"%[^\"]\"", ?_, .tail _ (.head _),
      .tail _ (.head _), ?_⟩
    · rw [PairCall.name, String.toList_ofList, String.toList_ofList, List.cons_append]
      rfl
    · rw [PairCall.name, String.toList_ofList, String.toList_ofList]
      rfl
  | rename =>
    refine ⟨'r', "ename(\"".toList, "%d rename(\"%[^\"]\", \"%[^\"]\"", ?_, .tail _ (.tail _ (.head _)),
      .tail _ (.tail _ (.head _)), ?_⟩
    · rw [PairCall.name, String.toList_ofList, String.toList_ofList, List.cons_append]
      rfl
    · rw [PairCall.name, String.toList_ofList, String.toList_ofList]
      rfl

theorem Calls.foreign (h : Calls formats letters call ds) {others : List String}
    (hheads : others.map firstChar = heads) (hspace : letters.all (!space ·) = true)
    (hletters : letters.all (fun b => !heads.contains (some b)) = true) (hnone : none ∉ heads)
    (hn : 1 < n) (p : Nat) :
    matched n others (pidField p ++ (call ++ s)) = none := by
  obtain ⟨b, w, format, rfl, hb, -, -⟩ := h
  have hblank : space b = false := by simpa using List.all_eq_true.mp hspace b hb
  have hmem : some b ∉ heads := by simpa using List.all_eq_true.mp hletters b hb
  exact matched_foreign hheads hn hblank hmem hnone p

theorem Calls.matched (h : Calls formats letters call ds) (hheads : formats.map firstChar = heads)
    (hspace : letters.all (!space ·) = true) (hnodup : heads.Nodup) (hnone : none ∉ heads) (hn : 1 < n)
    (p : Nat) :
    matched n formats (pidField p ++ (call ++ s)) =
      if (scan ds s).length + 1 = n then some (.num p :: scan ds s) else none := by
  obtain ⟨b, w, format, rfl, hb, hmem, hd⟩ := h
  have hblank : space b = false := by simpa using List.all_eq_true.mp hspace b hb
  have hfirst : firstChar format = some b := by rw [firstChar, hd]; rfl
  have hscan : sscanf format (pidField p ++ (b :: w ++ s)) = .num p :: scan ds s := by
    rw [sscanf_field hd (by simpa using hblank), scan_lits]
  have hown := matched_own (s := w ++ s) hheads hnodup hnone hmem hfirst hblank hn p
  rw [← List.cons_append, hscan] at hown
  exact hown

theorem action_exit (call : ExitCall) (status : Int) (hrest : ∀ c, rest.head? = some c → c.isDigit = false)
    (p : Nat) : action (pidField p ++ (call.name.toList ++ ['('] ++ (signed status ++ rest))) = .exit p := by
  have hcall := exit_calls call
  have hfork :=
    hcall.foreign (s := signed status ++ rest) fork_heads rfl rfl (by decide) (by decide : 1 < 2) p
  have hexit :=
    hcall.matched (s := signed status ++ rest) exit_heads rfl (by decide) (by decide) (by decide : 1 < 2) p
  rw [scan_num status hrest, scan] at hexit
  rw [action, hfork, hexit]
  rfl

/-- The formats for files are not for the change of a directory. -/
theorem action_chdir (path rest : Str) (p : Nat) :
    action (pidField p ++ ("chdir(\"".toList ++ (path ++ '"' :: rest))) =
      if path.takeWhile (· != '"') = [] then .skip else .chdir p (path.takeWhile (· != '"')) := by
  have hcall := chdir_calls
  have hfork := hcall.foreign (s := path ++ '"' :: rest) fork_heads rfl rfl (by decide) (by decide : 1 < 2) p
  have hexit := hcall.foreign (s := path ++ '"' :: rest) exit_heads rfl rfl (by decide) (by decide : 1 < 2) p
  have hchdir :=
    hcall.matched (s := path ++ '"' :: rest) chdir_heads rfl (by decide) (by decide) (by decide : 1 < 2) p
  have hopen := hcall.foreign (s := path ++ '"' :: rest) open_heads rfl rfl (by decide) (by decide : 1 < 3) p
  have hpath := hcall.foreign (s := path ++ '"' :: rest) path_heads rfl rfl (by decide) (by decide : 1 < 2) p
  have hpair := hcall.foreign (s := path ++ '"' :: rest) pair_heads rfl rfl (by decide) (by decide : 1 < 3) p
  rw [action, hfork, hexit, hchdir, hopen, hpath, hpair, scan_upTo, scan]
  split_ifs with hnil hlength
  · cases hlength
  · rfl
  · rfl
  · contradiction

/-- A file of this name is to be logged for the process. -/
def Action.Names (a : Action) (p : Nat) (name : Str) : Prop :=
  a = .path p name ∨ ∃ flags, a = .openFile p name flags

theorem action_open (path rest : Str) (p : Nat) :
    let a := action (pidField p ++ (PathCall.openFile.name.toList ++ ['(', '"'] ++ (path ++ '"' :: rest)))
    a = .skip ∨ a.Names p (path.takeWhile (· != '"')) := by
  intro a
  have hcall := open_calls
  have hfork := hcall.foreign (s := path ++ '"' :: rest) fork_heads rfl rfl (by decide) (by decide : 1 < 2) p
  have hexit := hcall.foreign (s := path ++ '"' :: rest) exit_heads rfl rfl (by decide) (by decide : 1 < 2) p
  have hchdir :=
    hcall.foreign (s := path ++ '"' :: rest) chdir_heads rfl rfl (by decide) (by decide : 1 < 2) p
  have hopen :=
    hcall.matched (s := path ++ '"' :: rest) open_heads rfl (by decide) (by decide) (by decide : 1 < 3) p
  have hpath := hcall.foreign (s := path ++ '"' :: rest) path_heads rfl rfl (by decide) (by decide : 1 < 2) p
  have hpair := hcall.foreign (s := path ++ '"' :: rest) pair_heads rfl rfl (by decide) (by decide : 1 < 3) p
  have ha : a =
    action (pidField p ++ (PathCall.openFile.name.toList ++ ['(', '"'] ++ (path ++ '"' :: rest))) := rfl
  rw [action, hfork, hexit, hchdir, hopen, hpath, hpair, scan_upTo] at ha
  split_ifs at ha with hnil hlength hlength
  · exact .inl ha
  · exact .inl ha
  · have hbefore : [Directive.lit '"', .lit ',', .white].all Directive.mute = true := rfl
    have hword : Directive.word.text = true := rfl
    have hafter : ([] : List Directive).all Directive.mute = true := rfl
    have htext := scan_text hbefore hword hafter ((path ++ '"' :: rest).dropWhile (· != '"'))
    rw [List.cons_append, List.cons_append, List.cons_append, List.nil_append] at htext
    rcases htext with hmore | ⟨flags, hmore⟩
    · rw [hmore] at hlength
      exact absurd hlength (by simp)
    · rw [hmore] at ha
      exact .inr (.inr ⟨flags, ha⟩)
  · exact .inl ha

theorem action_other {call : PathCall} (hopen : call ≠ .openFile) (path rest : Str) (p : Nat) :
    let a := action (pidField p ++ (call.name.toList ++ ['(', '"'] ++ (path ++ '"' :: rest)))
    a = .skip ∨ a.Names p (path.takeWhile (· != '"')) := by
  intro a
  have hcall := path_calls hopen
  have hfork := hcall.foreign (s := path ++ '"' :: rest) fork_heads rfl rfl (by decide) (by decide : 1 < 2) p
  have hexit := hcall.foreign (s := path ++ '"' :: rest) exit_heads rfl rfl (by decide) (by decide : 1 < 2) p
  have hchdir :=
    hcall.foreign (s := path ++ '"' :: rest) chdir_heads rfl rfl (by decide) (by decide : 1 < 2) p
  have hopen := hcall.foreign (s := path ++ '"' :: rest) open_heads rfl rfl (by decide) (by decide : 1 < 3) p
  have hpath :=
    hcall.matched (s := path ++ '"' :: rest) path_heads rfl (by decide) (by decide) (by decide : 1 < 2) p
  have hpair := hcall.foreign (s := path ++ '"' :: rest) pair_heads rfl rfl (by decide) (by decide : 1 < 3) p
  have ha : a = action (pidField p ++ (call.name.toList ++ ['(', '"'] ++ (path ++ '"' :: rest))) := rfl
  rw [action, hfork, hexit, hchdir, hopen, hpath, hpair, scan_upTo, scan_mute rfl] at ha
  split_ifs at ha with hnil hlength hlength
  · exact .inl ha
  · exact .inl ha
  · exact .inr (.inl ha)
  · exact absurd rfl hlength

theorem pair_values {old new rest : Str}
    (hlength : (scan pairTail (old ++ '"' :: (',' :: ' ' :: '"' :: (new ++ '"' :: rest)))).length + 1 = 3) :
    ∃ first name, scan pairTail (old ++ '"' :: (',' :: ' ' :: '"' :: (new ++ '"' :: rest))) =
    [.str first, .str name] ∧
      ('"' ∉ old → '"' ∉ new → name = new) := by
  by_cases hfree : '"' ∉ old ∧ '"' ∉ new
  · obtain ⟨hold, hnew⟩ := hfree
    have hblank : ∀ c, ('"' :: (new ++ '"' :: rest)).head? = some c → space c = false := by
      intro c hc
      rw [← Option.some.inj hc]
      rfl
    have hnone : scan [.upTo '"', .lit '"'] ([] ++ '"' :: rest) = [] := by rw [scan_upTo]; rfl
    rw [pairTail] at hlength ⊢
    by_cases hne : old = []
    · rw [hne, scan_upTo] at hlength
      cases hlength
    · rw [scan_upTo_free hold hne, scan, if_pos rfl, scan, if_pos rfl, scan_blank hblank, scan,
        if_pos rfl] at hlength ⊢
      by_cases hnil : new = []
      · rw [hnil, hnone] at hlength
        cases hlength
      · rw [scan_upTo_free hnew hnil, scan_mute rfl]
        exact ⟨old, new, rfl, fun _ _ => rfl⟩
  · generalize ',' :: ' ' :: '"' :: (new ++ '"' :: rest) = s at hlength ⊢
    rw [pairTail, scan_upTo] at hlength ⊢
    split_ifs at hlength ⊢
    · cases hlength
    · have hbefore : [Directive.lit '"', .lit ',', .white, .lit '"'].all Directive.mute = true := rfl
      have hname : (Directive.upTo '"').text = true := rfl
      have hafter : [Directive.lit '"'].all Directive.mute = true := rfl
      have htext := scan_text hbefore hname hafter ((old ++ '"' :: s).dropWhile (· != '"'))
      rw [List.cons_append, List.cons_append, List.cons_append, List.cons_append, List.nil_append] at htext
      rcases htext with hmore | ⟨name, hmore⟩
      · rw [hmore] at hlength
        cases hlength
      · rw [hmore]
        exact ⟨_, name, rfl, fun hold hnew => absurd ⟨hold, hnew⟩ hfree⟩

theorem action_path (call : PathCall) (path rest : Str) (p : Nat) :
    let a := action (pidField p ++ (call.name.toList ++ ['(', '"'] ++ (path ++ '"' :: rest)))
    a = .skip ∨ a.Names p (path.takeWhile (· != '"')) := by
  by_cases hopen : call = .openFile
  · rw [hopen]
    exact action_open path rest p
  · exact action_other hopen path rest p

/-- The second name is logged; it is the right one if no quotation mark is in the way. -/
theorem action_pair (call : PairCall) (old new rest : Str) (p : Nat) :
    let a := action (pidField p ++
      (call.name.toList ++ ['(', '"'] ++ (old ++ '"' :: ',' :: ' ' :: '"' :: new ++ '"' :: rest)))
    a = .skip ∨ ∃ name, ('"' ∉ old → '"' ∉ new → name = new) ∧ a.Names p name := by
  intro a
  have hcall := pair_calls call
  have hassoc : old ++ '"' :: ',' :: ' ' :: '"' :: new ++ '"' :: rest =
      old ++ '"' :: (',' :: ' ' :: '"' :: (new ++ '"' :: rest)) := by simp
  have ha : a = action (pidField p ++
      (call.name.toList ++ ['(', '"'] ++ (old ++ '"' :: ',' :: ' ' :: '"' :: new ++ '"' :: rest))) := rfl
  rw [hassoc] at ha
  have hvalues := @pair_values old new rest
  generalize old ++ '"' :: (',' :: ' ' :: '"' :: (new ++ '"' :: rest)) = s at ha hvalues
  have hfork := hcall.foreign (s := s) fork_heads rfl rfl (by decide) (by decide : 1 < 2) p
  have hexit := hcall.foreign (s := s) exit_heads rfl rfl (by decide) (by decide : 1 < 2) p
  have hchdir := hcall.foreign (s := s) chdir_heads rfl rfl (by decide) (by decide : 1 < 2) p
  have hopen := hcall.foreign (s := s) open_heads rfl rfl (by decide) (by decide : 1 < 3) p
  have hpath := hcall.foreign (s := s) path_heads rfl rfl (by decide) (by decide : 1 < 2) p
  have hpair := hcall.matched (s := s) pair_heads rfl (by decide) (by decide) (by decide : 1 < 3) p
  rw [action, hfork, hexit, hchdir, hopen, hpath, hpair] at ha
  split_ifs at ha with hlength
  · obtain ⟨first, name, hscan, hname⟩ := hvalues hlength
    rw [hscan] at ha
    exact .inr ⟨name, hname, .inl ha⟩
  · exact .inl ha

end Formats

end T2SDE.FlStparse
