import T2SDE.Lib.CString

namespace T2SDE

open Text CString

/-- What the wrapper is compiled with and what it calls: `MYNAME`, `!fnmatch(pattern, s, 0)`,
and the output of `sh -c command` on an input. -/
structure CmdWrapper where
  myname : Str
  fnmatch : Str → Str → Bool
  sh : Str → Str → Str

/-- The variables `<prefix>_WRAPPER_*` and `PATH`. -/
structure WrapperEnv where
  bypass : Option Str
  others : Option Str
  othersDone : Option Str
  insert : Option Str
  remove : Option Str
  append : Option Str
  filter : Option Str
  path : Option Str
  mypath : Option Str
  noloop : Option Str

/-- One character of the loop of `cleanenv`: the text kept so far, and whether it ends where
no delimiter belongs. -/
def cleanStep (ch : Char) (tmp2 : Str × Bool) (c : Char) : Str × Bool :=
  if c == ch then
    if tmp2.2 then tmp2 else (tmp2.1 ++ [ch], true)
  else (tmp2.1 ++ [c], false)

def cleanenv (ch : Char) (value : Option Str) : Option Str :=
  let tmp1 := value.getD []
  let tmp2 := (tmp1.foldl (cleanStep ch) ([], true)).1
  some (if tmp2.getLast? = some ch then tmp2.dropLast else tmp2)

/-- The memory after `eval_cond_arg`, and the pointer it returns. -/
def evalCondArg (w : CmdWrapper) (argv : List Str) (mem : Str) (arg : Nat) : Str × Nat :=
  let c := scanTo '?' mem arg
  if char mem c ≠ '?' then (mem, arg)
  else
    let mem := mem.set c nul
    let lhs := c + 1
    let c := scanTo ':' mem lhs
    let colon := char mem c = ':'
    let mem := if colon then mem.set c nul else mem
    let rhs := if colon then c + 1 else c
    if argv.any (w.fnmatch (strAt mem arg)) then (mem, lhs) else (mem, rhs)

/-- What an element of `newargv` points to: the copies of INSERT and APPEND, or a string that
stays as it is. -/
inductive Pointer
  | insert (p : Nat)
  | append (p : Nat)
  | string (s : Str)

/-- `newargv[0]` to `newargv[c1-1]`, the allocated number of elements, and whether all writes
have been within it. -/
structure NewArgv where
  elems : List Pointer
  newargc : Nat
  inBounds : Bool

def NewArgv.reallocIfNeeded (newargv : NewArgv) : NewArgv :=
  if newargv.elems.length + 1 ≥ newargv.newargc then { newargv with newargc := newargv.newargc * 2 }
  else newargv

def NewArgv.put (newargv : NewArgv) (p : Pointer) : NewArgv :=
  { newargv with
    elems := newargv.elems ++ [p]
    inBounds := newargv.inBounds && decide (newargv.elems.length < newargv.newargc) }

def NewArgv.close (newargv : NewArgv) : Bool :=
  newargv.inBounds && decide (newargv.elems.length < newargv.newargc)

/-- The loop that copies the words of INSERT or APPEND; there are no more words than characters. -/
def copyOptions (w : CmdWrapper) (argv : List Str) (pointer : Nat → Pointer) :
    Nat → Str → Nat → NewArgv → Str × NewArgv
  | 0, optbuf, _, newargv => (optbuf, newargv)
  | fuel + 1, optbuf, save, newargv =>
    match strtok ' ' optbuf save with
    | none => (optbuf, newargv)
    | some t =>
      let (optbuf, delim) := evalCondArg w argv t.mem t.tok
      let newargv := if char optbuf delim ≠ nul then newargv.reallocIfNeeded.put (pointer delim)
        else newargv
      copyOptions w argv pointer fuel optbuf t.save newargv

def copyVariable (w : CmdWrapper) (argv : List Str) (pointer : Nat → Pointer)
    (value : Option Str) (newargv : NewArgv) : Str × NewArgv :=
  match value with
  | none => ([], newargv)
  | some delim => copyOptions w argv pointer delim.length (strcpy delim) 0 newargv

/-- The loop over REMOVE for one argument: whether it ends with a match. -/
def removeLoop (w : CmdWrapper) (argv : List Str) (arg : Str) : Nat → Str → Nat → Bool
  | 0, _, _ => false
  | fuel + 1, optbuf, save =>
    match strtok ' ' optbuf save with
    | none => false
    | some t =>
      let (optbuf, delim) := evalCondArg w argv t.mem t.tok
      if char optbuf delim ≠ nul ∧ w.fnmatch (strAt optbuf delim) arg = true then true
      else removeLoop w argv arg fuel optbuf t.save

def removed (w : CmdWrapper) (argv : List Str) (remove : Option Str) (arg : Str) : Bool :=
  match remove with
  | none => false
  | some delim => removeLoop w argv arg delim.length (strcpy delim) 0

/-- `newargv` behind the main work, with the two option buffers it points into. -/
structure MainWork where
  newargv : NewArgv
  insert : Str
  append : Str

def isSet (value : Option Str) : Bool := value.getD [] != []

/-- `newargv` with the name of the next external wrapper, if there is one, and the command. -/
def initNewargv (other : Option Str) (cmd : Str) : NewArgv :=
  let newargv : NewArgv := { elems := [], newargc := 64, inBounds := true }
  let newargv := if isSet other then newargv.put (.string (other.getD [])) else newargv
  newargv.put (.string cmd)

/-- The main work: INSERT, the arguments that are not removed, APPEND. -/
def mainWork (w : CmdWrapper) (env : WrapperEnv) (other : Option Str) (cmd : Str)
    (args : List Str) : MainWork :=
  let argv := cmd :: args
  let (insert, newargv) := copyVariable w argv .insert env.insert (initNewargv other cmd)
  let newargv := args.foldl (fun newargv arg =>
    if removed w argv env.remove arg then newargv else newargv.reallocIfNeeded.put (.string arg)) newargv
  let (append, newargv) := copyVariable w argv .append env.append newargv
  { newargv, insert, append }

/-- The string an element of `newargv` stands for when it is used. -/
def MainWork.string (work : MainWork) : Pointer → Str
  | .insert p => strAt work.insert p
  | .append p => strAt work.append p
  | .string s => s

def MainWork.vector (work : MainWork) : List Str := work.newargv.elems.map work.string

def outputLines (out : Str) : List Str := (fileLines out).map fun line => strAt (strcpy line) 0

/-- The filter step; none where the filter printed nothing. -/
def applyFilter (w : CmdWrapper) (filter : Option Str) (work : MainWork) : Option MainWork :=
  if !isSet filter then some work
  else
    let out := w.sh (filter.getD []) (work.vector.flatMap fun arg => arg ++ ['\n'])
    if out = [] then none
    else
      let newargv := (outputLines out).foldl
        (fun newargv line => newargv.reallocIfNeeded.put (.string line))
        { work.newargv with elems := [] }
      some { work with newargv }

def basename (path : Str) : Str :=
  if path = [] then ".".toList
  else
    let stripped := (path.reverse.dropWhile (· == '/'))
    if stripped = [] then "/".toList else (stripped.takeWhile (· != '/')).reverse

/-- `argv` behind the first lines of main; none where it leaves with status 250. -/
def commandLine (w : CmdWrapper) (argv0 : Str) (args : List Str) : Option (Str × List Str) :=
  if basename argv0 = w.myname then
    match args with
    | [] => none
    | arg :: args => some (basename arg, args)
  else some (basename argv0, args)

def WrapperEnv.bypassed (env : WrapperEnv) : Bool :=
  isSet env.bypass && atoi (env.bypass.getD []) != 0

/-- The variables behind the bypass and the cleaning. -/
def WrapperEnv.clean (env : WrapperEnv) : WrapperEnv :=
  let env := if env.bypassed then
      { env with
        others := some []
        insert := some []
        remove := some []
        append := some []
        filter := some [] }
    else env
  { env with
    others := cleanenv ':' env.others
    insert := cleanenv ' ' env.insert
    remove := cleanenv ' ' env.remove
    append := cleanenv ' ' env.append
    filter := cleanenv '|' env.filter }

/-- The next external wrapper, the new OTHERS_DONE, and whether its text fits into the buffer
allocated for it. -/
structure NextOther where
  other : Option Str
  othersDone : Option Str
  fits : Bool

/-- The extraction of the next wrapper; none where main leaves with status 249. -/
def nextOther (others othersDone : Option Str) : Option NextOther :=
  if !isSet others then some { other := others, othersDone, fits := true }
  else
    let whole := others.getD []
    match othersDone with
    | some done =>
      if ¬done <+: whole then none
      else
        let other := whole.drop done.length
        if other = [] then some { other := none, othersDone, fits := true }
        else
          let other := if other.head? = some ':' then other.tail else other
          let newotherDone := done ++ ":".toList ++ other
          some { other := some other, othersDone := some newotherDone,
                 fits := decide (newotherDone.length + 1 ≤ whole.length) }
    | none =>
      let other := (strtok ':' (strcpy whole) 0).map fun t => strAt t.mem t.tok
      some { other, othersDone := other, fits := true }

/-- The loop that copies PATH without the wrapper directory. -/
def pathLoop (wrdir : Str) : Nat → Str → Nat → Str → Str
  | 0, _, _, optbuf => optbuf
  | fuel + 1, mem, save, optbuf =>
    match strtok ':' mem save with
    | none => optbuf
    | some t =>
      let delim := strAt t.mem t.tok
      let optbuf := if delim ≠ wrdir then
          (if optbuf ≠ [] then optbuf ++ ":".toList else optbuf) ++ delim
        else optbuf
      pathLoop wrdir fuel t.mem t.save optbuf

def newPath (path wrdir : Str) : Str := pathLoop wrdir path.length (strcpy path) 0 []

/-- What `execvp` is called with, and whether the writes into `newargv` and into the buffer of
OTHERS_DONE were within bounds. -/
structure Exec where
  env : WrapperEnv
  vector : List Str
  argvFits : Bool
  doneFits : Bool

inductive WrapperResult
  | exit (status : Nat)
  | other (exec : Exec)
  | command (exec : Exec)

def WrapperEnv.looping (env : WrapperEnv) : Bool :=
  isSet env.noloop && (env.noloop.getD []).head? != some '0'

def WrapperEnv.setDone (env : WrapperEnv) (done : Option Str) : WrapperEnv :=
  { env with othersDone := done }

def WrapperEnv.forCommand (env : WrapperEnv) : WrapperEnv :=
  { env with
    path := some (newPath (env.path.getD []) (env.mypath.getD []))
    noloop := some "1".toList }

/-- The end of main: the next external wrapper, or the real command. -/
def launch (env : WrapperEnv) (next : NextOther) (work : MainWork) : WrapperResult :=
  let exec (env : WrapperEnv) : Exec :=
    { env, vector := work.vector, argvFits := work.newargv.close, doneFits := next.fits }
  if isSet next.other then .other (exec env)
  else if !(isSet env.path && isSet env.mypath) then .exit 252
  else if env.looping then .exit 251
  else .command (exec env.forCommand)

/-- Main behind its first lines, up to one of the two calls of `execvp`. -/
def wrapCommand (w : CmdWrapper) (env : WrapperEnv) (cmd : Str) (args : List Str) : WrapperResult :=
  match nextOther env.clean.others env.clean.othersDone with
  | none => .exit 249
  | some next =>
    let env := env.clean.setDone next.othersDone
    match applyFilter w env.filter (mainWork w env next.other cmd args) with
    | none => .exit 248
    | some work => launch env next work

def cmdWrapperMain (w : CmdWrapper) (env : WrapperEnv) (argv0 : Str) (args : List Str) :
    WrapperResult :=
  match commandLine w argv0 args with
  | none => .exit 250
  | some (cmd, args) => wrapCommand w env cmd args

end T2SDE
