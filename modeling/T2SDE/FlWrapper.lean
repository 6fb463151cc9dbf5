import T2SDE.Lib.PathName

namespace T2SDE.FlWrapper

open Text PathName

/-- A wrapper as `add_wrapper` generates it: the descriptors that its `atcheck` tests, and the
arguments that it passes on. -/
structure Wrapper where
  retType : Str
  function : Str
  params : List Str
  atcheck : List Str
  args : List Str
  deriving DecidableEq

/-- `${x##* }` -/
def lastWord (x : Str) : Str := (x.reverse.takeWhile (· != ' ')).reverse

/-- `${x%%\[*\]}` -/
def dropArray (x : Str) : Str := if x.getLast? = some ']' then x.takeWhile (· != '[') else x

/-- The words between the commas of a prototype, without the blanks around these. -/
def prototypeWords (line : Str) : List Str :=
  (tokens (· == ',') line).map fun x => ((x.dropWhile (· == ' ')).reverse.dropWhile (· == ' ')).reverse

def isOpen (function : Str) : Bool := "open".toList.isPrefixOf function

def isExec (function : Str) : Bool := "exec".toList.isPrefixOf function

def addWrapper (line : Str) : Wrapper :=
  let words := prototypeWords line
  let function := words.getD 1 []
  let params := words.drop 2
  let p2 := params.map fun x => lastWord (dropArray x)
  { retType := words.getD 0 []
    function := function
    params := params
    atcheck := (params.filter fun x => "atfd".toList.isSuffixOf x).map lastWord
    args := if isOpen function ∧ p2.getLast? = some "...".toList then p2.dropLast else p2 }

/-- The calls of `add_wrapper`. -/
def prototypes : List Str := [
  "int,   open,    const char* f, int a, ...",
  "int,   open64,  const char* f, int a, ...",
  "int,   openat,  int atfd, const char* f, int a, ...",
  "int,   openat64,int atfd, const char* f, int a, ...",
  "FILE*, fopen,   const char* f, const char* g",
  "FILE*, fopen64, const char* f, const char* g",
  "int,   creat,   const char* f, mode_t m",
  "int,   creat64, const char* f, mode_t m",
  "int,   mkdir,   const char* f, mode_t m",
  "int,   mkfifo,  const char* f, mode_t m",
  "int,   mknod,   const char* f, mode_t m, dev_t d",
  "int,   __xmknod, int ver, const char* f, mode_t m, dev_t* d",
  "int,   link,    const char* s, const char* f",
  "int,   linkat,  int atfd, const char* s, int atfd2, const char* f, int flags",
  "int,   symlink, const char* s, const char* f",
  "int,   symlinkat, const char* s, int atfd, const char* f",
  "int,   rename,  const char* s, const char* f",
  "int,   renameat,  int atfds, const char* s, int atfd, const char* f",
  "int,   renameat2, int atfds, const char* s, int atfd, const char* f, unsigned int flags",
  "int,   utime,   const char* f, const struct utimbuf* t",
  "int,   utimes,  const char* f, struct timeval* t",
  "int,   utimensat, int atfd, const char* f, const struct timespec t[2], int flags",
  "int,   execv,   const char* f, char* const a[]",
  "int,   execve,  const char* f, char* const a[], char* const e[]"].map String.toList

/-- A descriptor argument of an `*at` function. -/
inductive Dirfd
  | cwd
  | fd (n : Nat)
  deriving DecidableEq

/-- The bits of `a` that the wrappers and the sandbox look at. -/
structure OpenFlags where
  wronly : Bool := false
  rdwr : Bool := false
  creat : Bool := false
  trunc : Bool := false
  append : Bool := false

/-- The arguments of a call, under the names of the parameters. -/
structure Call where
  fd : Str → Dirfd
  path : Str → Str
  flags : OpenFlags

/-- The process around a call: its directory, and where `/proc/self/fd` leads. -/
structure Process where
  cwd : Str
  readlink : Nat → Option Str

def pathMax : Nat := 4096

def getatpath (proc : Process) (dirfd : Nat) (pathname : Str) : Str :=
  match proc.readlink dirfd with
  | none => pathname
  | some link => link.take (pathMax - 1) ++ '/' :: pathname.take (pathMax - 1)

/-- The file that a wrapper watches in place of `f`. -/
def Wrapper.f2 (w : Wrapper) (proc : Process) (call : Call) : Str :=
  w.atcheck.foldl (fun f2 x =>
    match call.fd x with
    | .cwd => f2
    | .fd n => getatpath proc n (call.path ['f'])) (call.path ['f'])

def skipSlashes : Str → Str
  | '/' :: '/' :: file => skipSlashes ('/' :: file)
  | file => file

/-- `check_write_access`; `false` is the exit of the process. -/
def checkWriteAccess (basedir : Str) (file : Str) : Bool :=
  if file.head? = some '/' then
    let file := skipSlashes file
    file == "/dev/null".toList || "/tmp".toList.isPrefixOf file || basedir.isPrefixOf file
  else true

/-- What a wrapper does, in order. -/
inductive Event
  | check (func file : Str)
  | exit
  | before (func file : Str)
  | original (func : Str) (args : List Str)
  | after (func file : Str)
  deriving DecidableEq

/-- The body of a wrapper; `basedir` is `FLWRAPPER_BASEDIR`, if it is defined. -/
def Wrapper.run (w : Wrapper) (basedir : Option Str) (proc : Process) (call : Call) : List Event :=
  let f2 := w.f2 proc call
  let watched := [.before w.function f2, .original w.function w.args, .after w.function f2]
  if isOpen w.function then
    match basedir with
    | none => watched
    | some basedir =>
      if call.flags.wronly || call.flags.creat || call.flags.append then
        .check w.function f2 ::
          if checkWriteAccess basedir f2 then watched else [.exit]
      else watched
  else if isExec w.function then
    [.after w.function (call.path ['f']), .original w.function w.args]
  else watched

/-- The directory behind a descriptor. -/
def Process.directory (proc : Process) : Dirfd → List Str
  | .cwd => resolve [] proc.cwd
  | .fd n => resolve [] ((proc.readlink n).getD [])

/-- The file that a path names from a descriptor. -/
def Process.fileAt (proc : Process) (fd : Dirfd) (path : Str) : List Str :=
  resolve (if path.head? = some '/' then [] else proc.directory fd) path

theorem fileAt_absolute {proc : Process} {fd : Dirfd} {path : Str} (h : path.head? = some '/') :
    proc.fileAt fd path = resolve [] path := by
  rw [Process.fileAt, if_pos h]

theorem fileAt_relative {proc : Process} {fd : Dirfd} {path : Str} (h : path.head? ≠ some '/') :
    proc.fileAt fd path = resolve (proc.directory fd) path := by
  rw [Process.fileAt, if_neg h]

/-- The wrappers: their functions, the descriptors that they test and the arguments that they pass on. -/
def generated : List (Str × List Str × List Str) := [
  ("open", [], ["f", "a"]),
  ("open64", [], ["f", "a"]),
  ("openat", ["atfd"], ["atfd", "f", "a"]),
  ("openat64", ["atfd"], ["atfd", "f", "a"]),
  ("fopen", [], ["f", "g"]),
  ("fopen64", [], ["f", "g"]),
  ("creat", [], ["f", "m"]),
  ("creat64", [], ["f", "m"]),
  ("mkdir", [], ["f", "m"]),
  ("mkfifo", [], ["f", "m"]),
  ("mknod", [], ["f", "m", "d"]),
  ("__xmknod", [], ["ver", "f", "m", "d"]),
  ("link", [], ["s", "f"]),
  ("linkat", ["atfd"], ["atfd", "s", "atfd2", "f", "flags"]),
  ("symlink", [], ["s", "f"]),
  ("symlinkat", ["atfd"], ["s", "atfd", "f"]),
  ("rename", [], ["s", "f"]),
  ("renameat", ["atfd"], ["atfds", "s", "atfd", "f"]),
  ("renameat2", ["atfd"], ["atfds", "s", "atfd", "f", "flags"]),
  ("utime", [], ["f", "t"]),
  ("utimes", [], ["f", "t"]),
  ("utimensat", ["atfd"], ["atfd", "f", "t", "flags"]),
  ("execv", [], ["f", "a"]),
  ("execve", [], ["f", "a", "e"])].map fun w => (w.1.toList, w.2.1.map String.toList, w.2.2.map String.toList)

theorem generated_eq : prototypes.map (fun line =>
    ((addWrapper line).function, (addWrapper line).atcheck, (addWrapper line).args)) = generated := by
  simp only [prototypes, generated, List.map_cons, List.map_nil]
  -- the characters of the literals first: the kernel takes long to decode them
  repeat rw [String.toList_ofList]
  decide +kernel

theorem mem_generated {line : Str} (h : line ∈ prototypes) :
    ((addWrapper line).function, (addWrapper line).atcheck, (addWrapper line).args) ∈ generated :=
  generated_eq ▸ List.mem_map_of_mem h

example : (addWrapper "int,   openat,  int atfd, const char* f, int a, ...".toList).args =
    ["atfd".toList, ['f'], ['a']] := by
  decide +kernel

end T2SDE.FlWrapper
