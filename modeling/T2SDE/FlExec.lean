import Mathlib.Data.List.GetD
import Mathlib.Data.List.TakeWhile
import T2SDE.Lib.CString
import T2SDE.Lib.Joined
import T2SDE.Lib.Memory

namespace T2SDE.FlExec

open Text CString Memory

section Program

inductive Errno
  | enoent
  | eacces
  | estale
  | enotdir
  | enoexec
  | other (code : Nat)
  deriving DecidableEq

/-- A call of `execve`, with its vector up to the null pointer. -/
structure Attempt where
  path : Str
  argv : List Str
  deriving DecidableEq

/-- The error of `execve` at the last of the calls so far; none if it does not return. -/
abbrev Execve := List Attempt → Option Errno

/-- The calls of `execve`, and the error that is returned if the last one did not replace the process. -/
structure Outcome where
  tried : List Attempt
  errno : Option Errno
  deriving DecidableEq

def Execve.call (execve : Execve) (tried : List Attempt) (a : Attempt) : Outcome :=
  ⟨tried ++ [a], execve (tried ++ [a])⟩

/-- What `alloca` returns at each call: the address and what stands there. -/
structure Stack where
  place : Nat → Nat
  cell : Nat → Nat → Option Str
  char : Nat → Char

/-- A vector up to its null pointer. -/
def vector : List (Option Str) → Option (List Str)
  | [] => none
  | none :: _ => some []
  | some s :: cells => (vector cells).map (s :: ·)

def sh : Str := ['/', 'b', 'i', 'n', '/', 's', 'h']

/-- `while (argc > 1)` -/
def scriptLoop (argv : List (Option Str)) : Nat → List (Option Str) → List (Option Str)
  | k + 2, cells => scriptLoop argv (k + 1) (cells.set (k + 2) (argv.getD (k + 1) none))
  | _, cells => cells

/-- The vector that `script_execute` builds. -/
def newArgv (stack : Stack) (file : Str) (argv : List Str) : List (Option Str) :=
  let argc := argv.length + 1
  let cells := (List.range (argc + 1)).map (stack.cell 0)
  scriptLoop (argv.map some ++ [none]) argc ((cells.set 0 (some sh)).set 1 (some file))

def scriptExecute (execve : Execve) (stack : Stack) (tried : List Attempt) (file : Str) (argv : List Str) :
    Option Outcome :=
  (vector (newArgv stack file argv)).map fun v => execve.call tried ⟨sh, v⟩

/-- A name, and the shell for it where it is no program. -/
def attempt (execve : Execve) (stack : Stack) (tried : List Attempt) (name : Str) (argv : List Str) :
    Option Outcome :=
  let o := execve.call tried ⟨name, argv⟩
  if o.errno = some .enoexec then scriptExecute execve stack o.tried name argv else some o

/-- The errors that lead on to the next directory. -/
def Errno.goesOn : Errno → Bool
  | eacces | enoent | estale | enotdir => true
  | _ => false

/-- `strchrnul` from an index on. -/
def strchrnul (path : Str) (p : Nat) : Nat := p + ((path.drop p).takeWhile (· != ':')).length

/-- The string that begins at an index, if it ends within the memory. -/
def read (mem : Str) (p : Nat) : Option Str := if nul ∈ mem.drop p then some (strAt mem p) else none

/-- The start of the name for the directory between two indices, and the memory with the directory put
in front of the file. -/
def startp (path mem : Str) (p q : Nat) : Option (Nat × Str) :=
  if q = p then some (path.length + 1, mem)
  else if path.length < q - p then none
  else
    (store mem (path.length - (q - p)) ((path.drop p).take (q - p))).map fun mem =>
      (path.length - (q - p), mem)

/-- The loop of `execvp`; none is a read or a write outside of the memory. -/
def searchLoop (execve : Execve) (stack : Stack) (path : Str) (argv : List Str) :
    Nat → Nat → Str → Bool → List Attempt → Option Outcome
  | 0, _, _, _, _ => none
  | fuel + 1, p, mem, gotEacces, tried =>
    let q := strchrnul path p
    (startp path mem p q).bind fun s =>
      (read s.2 s.1).bind fun name =>
        (attempt execve stack tried name argv).bind fun o =>
          match o.errno with
          | none => some o
          | some e =>
            if e.goesOn then
              let got := gotEacces || e == .eacces
              if q = path.length then some ⟨o.tried, some (if got then .eacces else e)⟩
              else searchLoop execve stack path argv fuel (q + 1) s.2 got o.tried
            else some o

/-- A string in memory. -/
abbrev CText := {s : Str // nul ∉ s}

/-- The variable PATH, and what `confstr` gives for its default. -/
structure Environment where
  path : Option CText
  csPath : CText

def Environment.searched (env : Environment) : Str :=
  match env.path with
  | some path => path
  | none => ':' :: env.csPath

/-- The memory for the names, with the file at its top and a slash in front of it. -/
def nameMemory (stack : Stack) (path file : Str) : Option Str :=
  let mem := (List.range (path.length + (file.length + 1) + 1)).map stack.char
  (store mem (path.length + 1) (file ++ [nul])).bind fun mem => store mem path.length ['/']

def execvp (execve : Execve) (stack : Stack) (env : Environment) (file : CText) (argv : List Str) :
    Option Outcome :=
  if file.val = [] then some ⟨[], some .enoent⟩
  else if '/' ∈ file.val then attempt execve stack [] file argv
  else
    let path := env.searched
    (nameMemory stack path file).bind fun mem =>
      searchLoop execve stack path argv (path.length + 1) 0 mem false []

/-- The state of the loop of `execl`: where the vector stands, what is in it, its size as the loop has it,
the last index and the number of the calls of `alloca`. -/
structure Frame where
  addr : Nat
  cells : List (Option Str)
  argvMax : Nat
  i : Nat
  used : Nat

/-- The loop asks for twice the room; it compares addresses in bytes with numbers of cells. -/
def grow (stack : Stack) (f : Frame) : Option Frame :=
  let argvMax := f.argvMax * 2
  let nptr := stack.place f.used
  let cells := (List.range argvMax).map (stack.cell f.used)
  if nptr + argvMax = f.addr then
    (store cells 0 (f.cells.take f.i)).map fun cells => ⟨nptr, cells, argvMax + f.i, f.i, f.used + 1⟩
  else if f.addr + f.i = nptr then some { f with argvMax := argvMax + f.i, used := f.used + 1 }
  else (store cells 0 (f.cells.take f.i)).map fun cells => ⟨nptr, cells, argvMax, f.i, f.used + 1⟩

/-- The body of the loop of `execl`, with the next argument. -/
def put (stack : Stack) (f : Frame) (arg : Option Str) : Option Frame :=
  let f := { f with i := f.i + 1 }
  (if f.i = f.argvMax then grow stack f else some f).bind fun f =>
    (store f.cells f.i [arg]).map fun cells => { f with cells }

/-- The loop, with the arguments that are left. -/
def collectLoop (stack : Stack) : List (Option Str) → Frame → Option Frame
  | [], f =>
    match f.cells[f.i]? with
    | some none => some f
    | _ => none
  | arg :: args, f =>
    match f.cells[f.i]? with
    | none => none
    | some none => some f
    | some (some _) => (put stack f arg).bind (collectLoop stack args)

/-- The vector from the arguments of a call, which end with a null pointer. -/
def collect (stack : Stack) (arg : Option Str) (args : List (Option Str)) : Option (List Str) :=
  (store ((List.range 1024).map (stack.cell 0)) 0 [arg]).bind fun cells =>
    (collectLoop stack args ⟨stack.place 0, cells, 1024, 0, 1⟩).bind fun f => vector f.cells

def execl (execve : Execve) (stack : Stack) (path : CText) (arg : Option Str) (args : List (Option Str)) :
    Option Outcome :=
  (collect stack arg args).map fun argv => execve.call [] ⟨path, argv⟩

def execlp (execve : Execve) (stack : Stack) (env : Environment) (file : CText) (arg : Option Str)
    (args : List (Option Str)) : Option Outcome :=
  (collect stack arg args).bind fun argv => execvp execve stack env file argv

end Program

section Purpose

/-- The name of a file in a directory of the search path; an empty entry is the current directory. -/
def candidate (file dir : Str) : Str := if dir = [] then file else dir ++ '/' :: file

/-- The name is tried as a program, and then as a script. -/
def tryName (execve : Execve) (argv : List Str) (tried : List Attempt) (name : Str) : Outcome :=
  let o := execve.call tried ⟨name, argv⟩
  if o.errno = some .enoexec then execve.call o.tried ⟨sh, sh :: name :: argv.tail⟩ else o

/-- The names in their order, up to one that is executed or fails for another reason than that it
cannot be found or accessed. A denied access is what is reported in the end. -/
def search (execve : Execve) (argv : List Str) : List Str → Bool → List Attempt → Outcome
  | [], _, tried => ⟨tried, some .enoent⟩
  | name :: names, gotEacces, tried =>
    let o := tryName execve argv tried name
    match o.errno with
    | none => o
    | some e =>
      if e.goesOn then
        let got := gotEacces || e == .eacces
        if names = [] then ⟨o.tried, some (if got then .eacces else e)⟩
        else search execve argv names got o.tried
      else o

/-- A file is searched unless its name has a slash. -/
def intended (execve : Execve) (path file : Str) (argv : List Str) : Outcome :=
  if file = [] then ⟨[], some .enoent⟩
  else if '/' ∈ file then tryName execve argv [] file
  else search execve argv ((path.splitOn ':').map (candidate file)) false []

/-- The memory that the loop of `execl` asks for does not overlap what it has. -/
def Stack.Apart (stack : Stack) : Prop :=
  ∀ k, stack.place k + 8 * (1024 * 2 ^ k) ≤ stack.place (k + 1) ∨
    stack.place (k + 1) + 8 * (1024 * 2 ^ (k + 1)) ≤ stack.place k

end Purpose

section Vectors

variable {stack : Stack} {cells argv : List (Option Str)} {args : List Str} {k : Nat}

theorem vector_append (args : List Str) (cells : List (Option Str)) :
    vector (args.map some ++ none :: cells) = some args := by
  induction args with
  | nil => rfl
  | cons a args ih => rw [List.map_cons, List.cons_append, vector, ih, Option.map_some]

theorem vector_of_take (h : cells.take (args.length + 1) = args.map some ++ [none]) :
    vector cells = some args := by
  rw [← List.take_append_drop (args.length + 1) cells, h, List.append_assoc]
  exact vector_append args _

/-- What the loop has copied: the arguments behind the first one. -/
theorem scriptLoop_spec (first : Option Str) (hcells : k + 1 < cells.length) (hargv : k ≤ argv.length) :
    scriptLoop (first :: argv) (k + 1) cells = cells.take 2 ++ argv.take k ++ cells.drop (k + 2) := by
  induction k generalizing cells with
  | zero =>
    rw [List.take_zero, List.append_nil, List.take_append_drop]
    rfl
  | succ k ih =>
    have hget : (first :: argv).getD (k + 1) none = argv[k] := List.getD_eq_getElem argv none hargv
    have hrest : (cells.set (k + 2) argv[k]).drop (k + 2) = argv[k] :: cells.drop (k + 3) := by
      rw [List.drop_eq_getElem_cons (by rw [List.length_set]; omega), List.getElem_set_self,
        List.drop_set_of_lt (by omega)]
    rw [scriptLoop, hget, ih (by rw [List.length_set]; omega) (by omega), hrest,
      List.take_set_of_le (by omega),
      List.take_succ_eq_append_getElem hargv]
    simp only [List.append_assoc, List.singleton_append]

/-- The shell gets the name in front of the arguments behind the first one. -/
theorem vector_newArgv (stack : Stack) (file a : Str) (args : List Str) :
    vector (newArgv stack file (a :: args)) = some (sh :: file :: args) := by
  have hlength : ((List.range (args.length + 1 + 1 + 1)).map (stack.cell 0)).length = args.length + 3 := by
    rw [List.length_map, List.length_range]
  rw [newArgv, List.length_cons]
  generalize (List.range (args.length + 1 + 1 + 1)).map (stack.cell 0) = cells at hlength
  match cells with
  | [] => cases hlength
  | [_] => cases hlength
  | u :: v :: rest =>
    have hrest : rest.length = args.length + 1 := Nat.succ.inj (Nat.succ.inj hlength)
    have htail : (args.map some ++ [none]).length = args.length + 1 := by
      rw [List.length_append, List.length_map, List.length_singleton]
    have hset : ((u :: v :: rest).set 0 (some sh)).set 1 (some file) = some sh :: some file :: rest := rfl
    refine vector_of_take ?_
    rw [hset, List.map_cons, List.cons_append, scriptLoop_spec _ (by simp [hrest]) (by simp),
      List.take_of_length_le (Nat.le_of_eq htail)]
    have htwo : (some sh :: some file :: rest).take 2 = [some sh, some file] := rfl
    have hbehind : (some sh :: some file :: rest).drop (args.length + 1 + 2) = [] :=
      List.drop_eq_nil_of_le (by simp [hrest])
    rw [htwo, hbehind, List.append_nil, List.take_of_length_le (by simp)]
    rfl

end Vectors

section Collect

variable {stack : Stack} {args : List Str} {f : Frame} {done : List (Option Str)}

/-- The vector holds the arguments so far, and its size is the one that was asked for last. -/
structure Frame.Good (stack : Stack) (f : Frame) (done : List (Option Str)) : Prop where
  addr : f.addr = stack.place (f.used - 1)
  used : 0 < f.used
  argvMax : f.argvMax = 1024 * 2 ^ (f.used - 1)
  length : f.cells.length = f.argvMax
  room : f.i < f.argvMax
  index : done.length = f.i + 1
  taken : f.cells.take (f.i + 1) = done

theorem store_eq {α : Type} {buffer xs : List α} {i : Nat} (h : i + xs.length ≤ buffer.length) :
    store buffer i xs = some (overwrite buffer i xs) := if_pos h

/-- Where the room is used up, the vector is copied to a new place. -/
theorem grow_spec (hapart : stack.Apart) (h : f.Good stack done) (hfull : f.i + 1 = f.argvMax) :
    ∃ cells, grow stack { f with i := f.i + 1 } =
        some ⟨stack.place f.used, cells, f.argvMax * 2, f.i + 1, f.used + 1⟩ ∧
      cells.length = f.argvMax * 2 ∧ cells.take (f.i + 1) = done := by
  have haddr := h.addr
  have hmax := h.argvMax
  have hlength := h.length
  have hused := h.used
  have hplaces := hapart (f.used - 1)
  have hsucc : f.used - 1 + 1 = f.used := Nat.sub_add_cancel hused
  have hpow : 2 ^ f.used = 2 * 2 ^ (f.used - 1) := by
    rw [← Nat.pow_succ', Nat.succ_eq_add_one, hsucc]
  rw [hsucc, hpow] at hplaces
  have hdown : stack.place f.used + f.argvMax * 2 ≠ f.addr := by omega
  have hup : f.addr + (f.i + 1) ≠ stack.place f.used := by omega
  have htaken : (f.cells.take (f.i + 1)).length = f.i + 1 := by
    rw [List.length_take]
    omega
  have hroom : ((List.range (f.argvMax * 2)).map (stack.cell f.used)).length = f.argvMax * 2 := by
    rw [List.length_map, List.length_range]
  have hfits : 0 + (f.cells.take (f.i + 1)).length ≤
    ((List.range (f.argvMax * 2)).map (stack.cell f.used)).length := by
    rw [htaken, hroom]
    omega
  refine ⟨overwrite ((List.range (f.argvMax * 2)).map (stack.cell f.used)) 0 (f.cells.take (f.i + 1)), ?_,
    ?_, ?_⟩
  · rw [grow, if_neg hdown, if_neg hup, store_eq hfits]
    rfl
  · rw [length_overwrite hfits, hroom]
  · have htake := take_overwrite (Nat.zero_le ((List.range (f.argvMax * 2)).map (stack.cell f.used)).length)
      (f.cells.take (f.i + 1))
    rw [htaken, Nat.zero_add, List.take_zero, List.nil_append] at htake
    exact htake.trans h.taken

theorem put_spec (hapart : stack.Apart) (h : f.Good stack done) (arg : Option Str) :
    ∃ g, put stack f arg = some g ∧ g.Good stack (done ++ [arg]) := by
  have hindex := h.index
  have hroom := h.room
  have hlength := h.length
  rw [put]
  by_cases hfull : f.i + 1 = f.argvMax
  · obtain ⟨cells, hgrow, hcells, htaken⟩ := grow_spec hapart h hfull
    have hfits : f.i + 1 + [arg].length ≤ cells.length := by
      rw [List.length_singleton]
      omega
    refine ⟨⟨stack.place f.used, overwrite cells (f.i + 1) [arg], f.argvMax * 2, f.i + 1, f.used + 1⟩, ?_, ?_⟩
    · rw [if_pos hfull, hgrow, Option.bind_some, store_eq hfits]
      rfl
    · have htake := take_overwrite (show f.i + 1 ≤ cells.length by omega) [arg]
      rw [htaken] at htake
      refine ⟨rfl, Nat.succ_pos _, ?_, ?_, ?_, ?_, htake⟩
      · have hsucc : f.used - 1 + 1 = f.used := Nat.sub_add_cancel h.used
        rw [h.argvMax, Nat.mul_assoc, ← Nat.pow_succ, Nat.succ_eq_add_one, hsucc]
        rfl
      · rw [length_overwrite hfits, hcells]
      · show f.i + 1 < f.argvMax * 2
        omega
      · rw [List.length_append, hindex, List.length_singleton]
  · have hfits : f.i + 1 + [arg].length ≤ f.cells.length := by
      rw [List.length_singleton]
      omega
    refine ⟨⟨f.addr, overwrite f.cells (f.i + 1) [arg], f.argvMax, f.i + 1, f.used⟩, ?_, ?_⟩
    · rw [if_neg hfull, Option.bind_some, store_eq hfits]
      rfl
    · have htake := take_overwrite (show f.i + 1 ≤ f.cells.length by omega) [arg]
      rw [h.taken] at htake
      refine ⟨h.addr, h.used, h.argvMax, ?_, ?_, ?_, htake⟩
      · rw [length_overwrite hfits, hlength]
      · show f.i + 1 < f.argvMax
        omega
      · rw [List.length_append, hindex, List.length_singleton]

/-- What the loop looks at is the last argument. -/
theorem Frame.Good.last {arg : Option Str} (h : f.Good stack (done ++ [arg])) : f.cells[f.i]? = some arg := by
  have hindex := h.index
  rw [List.length_append, List.length_singleton] at hindex
  have hget : (f.cells.take (f.i + 1))[f.i]? = f.cells[f.i]? := List.getElem?_take_of_lt (Nat.lt_succ_self _)
  rw [← hget, h.taken, ← Nat.succ.inj hindex, List.getElem?_concat_length]

theorem collectLoop_end (h : f.cells[f.i]? = some none) : collectLoop stack [] f = some f := by
  rw [collectLoop, h]

theorem collectLoop_next {a : Str} (h : f.cells[f.i]? = some (some a)) (arg : Option Str)
    (rest : List (Option Str)) :
    collectLoop stack (arg :: rest) f = (put stack f arg).bind (collectLoop stack rest) := by
  rw [collectLoop, h]

theorem collectLoop_spec (hapart : stack.Apart) {a : Str} (h : f.Good stack (done ++ [some a]))
    (args : List Str) :
    ∃ g, collectLoop stack (args.map some ++ [none]) f = some g ∧
      g.Good stack (done ++ (a :: args).map some ++ [none]) := by
  induction args generalizing f done a with
  | nil =>
    obtain ⟨g, hput, hgood⟩ := put_spec hapart h none
    refine ⟨g, ?_, hgood⟩
    rw [List.map_nil, List.nil_append, collectLoop_next h.last, hput, Option.bind_some,
      collectLoop_end hgood.last]
  | cons b args ih =>
    obtain ⟨f', hput, hnext⟩ := put_spec hapart h (some b)
    obtain ⟨g, hloop, hgood⟩ := ih hnext
    refine ⟨g, ?_, ?_⟩
    · rw [List.map_cons, List.cons_append, collectLoop_next h.last, hput, Option.bind_some, hloop]
    · rw [List.append_assoc done] at hgood
      exact hgood

/-- The vector has the arguments of the call, however many there are. -/
theorem collect_spec (hapart : stack.Apart) (a : Str) (args : List Str) :
    collect stack (some a) (args.map some ++ [none]) = some (a :: args) := by
  have hroom : ((List.range 1024).map (stack.cell 0)).length = 1024 := by
    rw [List.length_map, List.length_range]
  have hfits : 0 + [some a].length ≤ ((List.range 1024).map (stack.cell 0)).length := by
    rw [hroom, List.length_singleton]
    decide
  have htake := take_overwrite (Nat.zero_le ((List.range 1024).map (stack.cell 0)).length) [some a]
  have hgood : Frame.Good stack ⟨stack.place 0,
    overwrite ((List.range 1024).map (stack.cell 0)) 0 [some a], 1024, 0, 1⟩
      ([] ++ [some a]) :=
    ⟨rfl, Nat.one_pos, rfl, by rw [length_overwrite hfits, hroom], show 0 < 1024 by decide, rfl, htake⟩
  obtain ⟨g, hloop, hend⟩ := collectLoop_spec hapart hgood args
  rw [collect, store_eq hfits, Option.bind_some, hloop, Option.bind_some]
  refine vector_of_take ?_
  have hindex := hend.index
  rw [List.nil_append, List.length_append, List.length_map, List.length_singleton] at hindex
  rw [Nat.succ.inj hindex]
  exact hend.taken

end Collect

section Search

variable {stack : Stack} {execve : Execve} {env : Environment} {path mem file : Str} {p q : Nat}

theorem attempt_eq (execve : Execve) (stack : Stack) (tried : List Attempt) (name a : Str) (args : List Str) :
    attempt execve stack tried name (a :: args) = some (tryName execve (a :: args) tried name) := by
  rw [attempt, tryName]
  split_ifs
  · rw [scriptExecute, vector_newArgv]
    rfl
  · rfl

/-- The memory for the names, with the slash and the file behind the room for a directory. -/
structure Topped (path file mem : Str) : Prop where
  length : mem.length = path.length + file.length + 2
  top : mem.drop path.length = '/' :: (file ++ [nul])

theorem nameMemory_spec (stack : Stack) (path file : Str) :
    ∃ mem, nameMemory stack path file = some mem ∧ Topped path file mem := by
  have hroom : ((List.range (path.length + (file.length + 1) + 1)).map stack.char).length =
      path.length + file.length + 2 := by
    rw [List.length_map, List.length_range]
    omega
  rw [nameMemory]
  generalize (List.range (path.length + (file.length + 1) + 1)).map stack.char = mem at hroom
  have hfile : (file ++ [nul]).length = file.length + 1 := by rw [List.length_append, List.length_singleton]
  have hfits : path.length + 1 + (file ++ [nul]).length ≤ mem.length := by omega
  have hlength := length_overwrite hfits
  have hslash : path.length + ['/'].length ≤ (overwrite mem (path.length + 1) (file ++ [nul])).length := by
    rw [List.length_singleton]
    omega
  refine ⟨overwrite (overwrite mem (path.length + 1) (file ++ [nul])) path.length ['/'], ?_, ?_, ?_⟩
  · rw [store_eq hfits, Option.bind_some, store_eq hslash]
  · rw [length_overwrite hslash, hlength, hroom]
  · have hbehind : mem.drop (path.length + 1 + (file ++ [nul]).length) = [] :=
      List.drop_eq_nil_of_le (by omega)
    rw [drop_overwrite (by omega), List.length_singleton, drop_overwrite (by omega), hbehind, List.append_nil]
    rfl

theorem Topped.behind (h : Topped path file mem) : mem.drop (path.length + 1) = file ++ [nul] := by
  rw [← List.drop_drop, h.top]
  rfl

theorem read_of (hfree : nul ∉ file) (h : mem.drop p = file ++ [nul]) : read mem p = some file := by
  have hmem : nul ∈ mem.drop p := by
    rw [h]
    exact List.mem_append_right _ List.mem_cons_self
  have hrun : ∀ c ∈ file, (c != nul) = true := fun c hc => by
    simpa using fun heq : c = nul => hfree (heq ▸ hc)
  rw [read, if_pos hmem, strAt, h, takeWhile_stop hrun (by simp)]

/-- The name for an entry of the path is what is read where it was put. -/
theorem startp_spec (h : Topped path file mem) (hpath : nul ∉ path) (hfile : nul ∉ file) (hpq : p ≤ q)
    (hq : q ≤ path.length) :
    ∃ s, startp path mem p q = some s ∧ Topped path file s.2 ∧
      read s.2 s.1 = some (candidate file ((path.drop p).take (q - p))) := by
  have hdir : ((path.drop p).take (q - p)).length = q - p := by
    rw [List.length_take, List.length_drop]
    omega
  rw [startp]
  split_ifs with hempty hshort
  · refine ⟨(path.length + 1, mem), rfl, h, ?_⟩
    rw [hempty, Nat.sub_self, List.take_zero, candidate, if_pos rfl]
    exact read_of hfile h.behind
  · omega
  · have hlength := h.length
    have hfits : path.length - (q - p) + ((path.drop p).take (q - p)).length ≤ mem.length := by omega
    have hend : path.length - (q - p) + ((path.drop p).take (q - p)).length = path.length := by omega
    have hdrop :=
      drop_overwrite (show path.length - (q - p) ≤ mem.length by omega) ((path.drop p).take (q - p))
    rw [hend, h.top] at hdrop
    have hne : (path.drop p).take (q - p) ≠ [] := List.ne_nil_of_length_pos (by omega)
    refine ⟨(path.length - (q - p), overwrite mem (path.length - (q - p)) ((path.drop p).take (q - p))),
      ?_, ⟨?_, ?_⟩, ?_⟩
    · rw [store_eq hfits]
      rfl
    · exact (length_overwrite hfits).trans hlength
    · dsimp only
      generalize overwrite mem (path.length - (q - p)) ((path.drop p).take (q - p)) = written at hdrop
      rw [← hend, ← List.drop_drop, hdrop, List.drop_left]
    · have hfree : nul ∉ candidate file ((path.drop p).take (q - p)) := by
        rw [candidate, if_neg hne, List.mem_append, List.mem_cons]
        rintro (hmem | hslash | hmem)
        · exact hpath (List.mem_of_mem_drop (List.mem_of_mem_take hmem))
        · exact absurd hslash (by decide)
        · exact hfile hmem
      refine read_of hfree ?_
      rw [hdrop, candidate, if_neg hne, List.append_assoc]
      rfl

/-- The entry of the path that begins at an index, and what is behind it. -/
theorem strchrnul_spec (hp : p ≤ path.length) :
    p ≤ strchrnul path p ∧ strchrnul path p ≤ path.length ∧
    (path.drop p).splitOn ':' = (path.drop p).take (strchrnul path p - p) ::
      (if strchrnul path p = path.length then [] else (path.drop (strchrnul path p + 1)).splitOn ':') := by
  have hwhole : (path.drop p).takeWhile (· != ':') ++ (path.drop p).dropWhile (· != ':') = path.drop p :=
    List.takeWhile_append_dropWhile
  have hfree : ':' ∉ (path.drop p).takeWhile (· != ':') := fun h => by
    simpa using List.mem_takeWhile_imp h
  have hhead := List.head?_dropWhile_not (· != ':') (path.drop p)
  have hq : strchrnul path p = p + ((path.drop p).takeWhile (· != ':')).length := rfl
  generalize (path.drop p).takeWhile (· != ':') = dir at hwhole hfree hq
  generalize (path.drop p).dropWhile (· != ':') = rest at hwhole hhead
  have hlength := congrArg List.length hwhole
  rw [List.length_append, List.length_drop] at hlength
  have hbehind : path.drop (strchrnul path p) = rest := by
    rw [hq, ← List.drop_drop, ← hwhole, List.drop_left]
  refine ⟨by omega, by omega, ?_⟩
  rw [hq, Nat.add_sub_cancel_left, ← hq, ← hwhole, List.take_left]
  cases rest with
  | nil =>
    rw [List.length_nil] at hlength
    rw [List.append_nil, if_pos (by omega)]
    exact List.splitOn_eq_singleton hfree
  | cons c rest =>
    have hc : c = ':' := by simpa using hhead
    rw [List.length_cons] at hlength
    rw [if_neg (by omega), ← List.drop_drop, hbehind, hc, List.splitOn_append_cons_self,
      List.splitOn_eq_singleton hfree]
    rfl

theorem searchLoop_spec (hpath : nul ∉ path) (hfile : nul ∉ file) (a : Str) (args : List Str) (fuel : Nat)
    (hp : p ≤ path.length) (hfuel : path.length < fuel + p) (h : Topped path file mem) (got : Bool)
    (tried : List Attempt) :
    searchLoop execve stack path (a :: args) fuel p mem got tried =
      some (search execve (a :: args) (((path.drop p).splitOn ':').map (candidate file)) got tried) := by
  induction fuel generalizing p mem got tried with
  | zero => omega
  | succ fuel ih =>
    obtain ⟨hpq, hq, hsplit⟩ := strchrnul_spec hp
    obtain ⟨s, hstart, htopped, hread⟩ := startp_spec h hpath hfile hpq hq
    rw [searchLoop]
    dsimp only
    rw [hstart, Option.bind_some, hread, Option.bind_some, attempt_eq, Option.bind_some, hsplit,
      List.map_cons, search]
    cases (tryName execve (a :: args) tried (candidate file
      ((path.drop p).take (strchrnul path p - p)))).errno with
    | none => rfl
    | some e =>
      dsimp only
      by_cases hend : strchrnul path p = path.length
      · rw [if_pos hend, if_pos hend, List.map_nil, if_pos rfl]
        split_ifs <;> rfl
      · have hne : ((path.drop (strchrnul path p + 1)).splitOn ':').map (candidate file) ≠ [] := by
          rw [ne_eq, List.map_eq_nil_iff]
          exact List.splitOn_ne_nil _ _
        rw [if_neg hend, if_neg hend, if_neg hne, ih (by omega) (by omega) htopped]
        split_ifs <;> rfl

/-- What `execvp` does with an argument vector that is not empty. -/
theorem execvp_eq (execve : Execve) (stack : Stack) (env : Environment) (file : CText) (a : Str)
    (args : List Str)
    (hpath : nul ∉ env.searched) :
    execvp execve stack env file (a :: args) = some (intended execve env.searched file (a :: args)) := by
  rw [execvp, intended]
  split_ifs
  · rfl
  · exact attempt_eq execve stack [] file a args
  · obtain ⟨mem, hmem, htopped⟩ := nameMemory_spec stack env.searched file
    dsimp only
    rw [hmem, Option.bind_some, searchLoop_spec hpath file.property a args _ (Nat.zero_le _)
      (by omega) htopped,
      List.drop_zero]

theorem searched_free (env : Environment) : nul ∉ env.searched := by
  rw [Environment.searched]
  cases env.path with
  | some path => exact path.property
  | none =>
    rw [List.mem_cons, not_or]
    exact ⟨by decide, env.csPath.property⟩

end Search

section Results

/-- However many arguments there are and wherever the memory for them is, the names are tried in the order
of the path with the whole vector, and nothing outside of the memory is read or written. -/
theorem execlp_search (execve : Execve) (stack : Stack) (hapart : stack.Apart) (env : Environment)
    (file : CText)
    (a : Str) (args : List Str) :
    execlp execve stack env file (some a) (args.map some ++ [none]) =
      some (intended execve env.searched file (a :: args)) := by
  rw [execlp, collect_spec hapart, Option.bind_some,
    execvp_eq execve stack env file a args (searched_free env)]

/-- Each new vector begins where the last one ends. -/
def sampleStack : Stack where
  place k := 8 * (1024 * 2 ^ k)
  cell _ _ := some ['?']
  char _ := '?'

theorem sampleStack_apart : sampleStack.Apart := fun k => .inl (by
  have hpow : 2 ^ (k + 1) = 2 ^ k * 2 := Nat.pow_succ _ _
  show 8 * (1024 * 2 ^ k) + 8 * (1024 * 2 ^ k) ≤ 8 * (1024 * 2 ^ (k + 1))
  omega)

def sampleEnvironment : Environment := ⟨some ⟨"/usr/bin::/bin".toList, by decide⟩, ⟨"/bin".toList, by decide⟩⟩

def ls : CText := ⟨['l', 's'], by decide⟩

/-- There is no file with the second name, and the others are not programs. -/
def sampleExecve : Execve := fun tried =>
  match tried with
  | [_] => some .enoexec
  | [_, _] => some .eacces
  | [_, _, _] => some .enoent
  | _ => some .enotdir

theorem execlp_search_ls :
    execlp sampleExecve sampleStack sampleEnvironment ls (some ls.val) ([['-', 'l']].map some ++ [none]) =
    some ⟨[⟨"/usr/bin/ls".toList, [ls, "-l".toList]⟩, ⟨sh, [sh, "/usr/bin/ls".toList, "-l".toList]⟩,
      ⟨ls, [ls, "-l".toList]⟩, ⟨"/bin/ls".toList, [ls, "-l".toList]⟩], some .eacces⟩ :=
  (execlp_search sampleExecve sampleStack sampleStack_apart sampleEnvironment ls ls [['-', 'l']]).trans
    (by decide)

end Results

end T2SDE.FlExec
