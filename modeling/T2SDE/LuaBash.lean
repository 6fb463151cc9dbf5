import Mathlib.Data.List.Basic
import T2SDE.Lib.Text

namespace T2SDE.LuaBash

open Text

/-- A Lua value as `call_function` tells it apart: a number as the `int` that it is returned as,
and any other object by the name of its type. -/
inductive LuaValue
  | nil
  | boolean (b : Bool)
  | number (n : Int)
  | string (s : Str)
  | object (type : Str)
  deriving DecidableEq

/-- `lua_typename` of `lua_type` -/
def LuaValue.typename : LuaValue → Str
  | .nil => "nil".toList
  | .boolean _ => "boolean".toList
  | .number _ => "number".toList
  | .string _ => "string".toList
  | .object type => type

/-- The Lua library, with the globals of a Lua state as a value. -/
structure Lua (G : Type) where
  /-- `luaL_openlibs` and the `bash` table -/
  libs : G
  loadfile : G → Str → Except LuaValue LuaValue
  getglobal : G → Str → LuaValue
  /-- a function called with its arguments: its results or the error -/
  run : G → LuaValue → List LuaValue → G × Except LuaValue (List LuaValue)

inductive BashFlavor
  | v2
  | v3
  | unknown
  deriving DecidableEq

/-- What is printed: the usage text or a line. -/
inductive Message
  | usage
  | line (text : Str)
  deriving DecidableEq

/-- The static variables of the builtin and what it has printed; the top of the stack is first. -/
structure Luabash (G : Type) where
  initialized : Bool
  currentFlavor : BashFlavor
  globals : G
  stack : List LuaValue
  printed : List Message

variable {G : Type}

namespace Luabash

def gettop (s : Luabash G) : Nat := s.stack.length

def push (s : Luabash G) (v : LuaValue) : Luabash G := { s with stack := v :: s.stack }

def print (s : Luabash G) (m : Message) : Luabash G := { s with printed := s.printed ++ [m] }

@[simp] theorem gettop_push (s : Luabash G) (v : LuaValue) : (s.push v).gettop = s.gettop + 1 := rfl

@[simp] theorem gettop_print (s : Luabash G) (m : Message) : (s.print m).gettop = s.gettop := rfl

@[simp] theorem initialized_push (s : Luabash G) (v : LuaValue) :
    (s.push v).initialized = s.initialized := rfl

@[simp] theorem initialized_print (s : Luabash G) (m : Message) :
    (s.print m).initialized = s.initialized := rfl

end Luabash

def executionSuccess : Int := 0
def executionFailure : Int := 1

/-- The error message that a failing call has left on the stack is printed, and stays there. -/
def luaErrmsg (s : Luabash G) : Luabash G :=
  let text := match s.stack.head? with
    | some (.string msg) => msg
    | some (.number n) => (toString n).toList
    | _ => "(null)".toList
  s.print (.line ("lua bash error: ".toList ++ text))

def adjust (nresults : Nat) (results : List LuaValue) : List LuaValue :=
  results.take nresults ++ List.replicate (nresults - results.length) .nil

/-- `lua_pcall`: the function and its arguments are replaced by the results or the error. -/
def pcall (lua : Lua G) (nargs nresults : Nat) (s : Luabash G) : Luabash G × Bool :=
  let args := (s.stack.take nargs).reverse
  let rest := s.stack.drop (nargs + 1)
  match lua.run s.globals (s.stack.getD nargs .nil) args with
  | (globals, .ok results) =>
    ({ s with globals, stack := (adjust nresults results).reverse ++ rest }, true)
  | (globals, .error msg) => ({ s with globals, stack := msg :: rest }, false)

/-- `init_luabash`, with the value of `BASH_VERSION` -/
def initLuabash (lua : Lua G) (bashVersion : Option Str) (s : Luabash G) : Luabash G × Int :=
  if s.initialized then (s, executionSuccess)
  else
    match bashVersion with
    | none => (s, executionFailure)
    | some version =>
      let flavor :=
        if version.head? = some '2' then .v2
        else if version.head? = some '3' ∨ version.head? = some '4' ∨ version.head? = some '5' then .v3
        else s.currentFlavor
      let s := { s with currentFlavor := flavor }
      if flavor = .unknown then (s.print (.line "lua bash error: NYI bash version".toList), executionFailure)
      else
        -- `luaL_register` leaves the table of the library on the stack
        ({ s with globals := lua.libs, stack := [.object "table".toList], initialized := true },
          executionSuccess)

def loadChunk (lua : Lua G) (bashVersion : Option Str) (filename : Str) (s : Luabash G) :
    Luabash G × Int :=
  match initLuabash lua bashVersion s with
  | (s, result) =>
    if result ≠ executionSuccess then (s, result)
    else
      match lua.loadfile s.globals filename with
      | .error msg => (luaErrmsg (s.push msg), executionFailure)
      | .ok chunk =>
        match pcall lua 0 0 (s.push chunk) with
        | (s, true) => (s, executionSuccess)
        | (s, false) => (luaErrmsg s, executionFailure)

def callFunction (lua : Lua G) (func : Str) (argv : List Str) (s : Luabash G) : Luabash G × Int :=
  if !s.initialized then (s.print (.line "lua bash error: not initialized yet!".toList), executionFailure)
  else
    let s := s.push (lua.getglobal s.globals func)
    let s := argv.foldl (fun s word => s.push (.string word)) s
    match pcall lua argv.length 1 s with
    | (s, false) => (luaErrmsg s, executionFailure)
    | (s, true) =>
      match s.stack.headD .nil with
      | .number n => (s, n)
      | .boolean b => (s, if b then executionSuccess else executionFailure)
      | .nil => (s, executionSuccess)
      | v =>
        (s.print (.line ("lua bash: unexpected type '".toList ++ v.typename ++ "' returned".toList)),
          executionSuccess)

def printUsage (s : Luabash G) : Luabash G := s.print .usage

/-- The builtin with the words of its command line. -/
def luabashBuiltin (lua : Lua G) (bashVersion : Option Str) (words : List Str) (s : Luabash G) :
    Luabash G × Int :=
  match words with
  | [] => (printUsage s, executionFailure)
  | command :: list =>
    if command = "init".toList then initLuabash lua bashVersion s
    else if command = "load".toList then
      match list with
      | filename :: _ => loadChunk lua bashVersion filename s
      | [] => (printUsage s, executionFailure)
    else if command = "call".toList then
      match list with
      | func :: argv => callFunction lua func argv s
      | [] => (printUsage s, executionFailure)
    else (printUsage s, executionFailure)

def step (lua : Lua G) (bashVersion : Option Str) (s : Luabash G) (words : List Str) : Luabash G :=
  (luabashBuiltin lua bashVersion words s).1

/-- The commands that leave a value behind: every call, and a load that fails. -/
def leavesValue (lua : Lua G) (s : Luabash G) : List Str → Bool
  | command :: word :: _ =>
    if command = "call".toList then true
    else if command = "load".toList then
      match lua.loadfile s.globals word with
      | .error _ => true
      | .ok chunk => !(lua.run s.globals chunk []).2.isOk
    else false
  | _ => false

theorem gettop_luaErrmsg (s : Luabash G) : (luaErrmsg s).gettop = s.gettop := rfl

theorem length_adjust (nresults : Nat) (results : List LuaValue) :
    (adjust nresults results).length = nresults := by
  simp only [adjust, List.length_append, List.length_take, List.length_replicate]
  omega

theorem pcall_cases (lua : Lua G) (nargs nresults : Nat) (s : Luabash G) :
    (∃ globals results,
      lua.run s.globals (s.stack.getD nargs .nil) (s.stack.take nargs).reverse = (globals, .ok results) ∧
        pcall lua nargs nresults s =
          ({ s with globals, stack := (adjust nresults results).reverse ++ s.stack.drop (nargs + 1) },
            true)) ∨
    ∃ globals msg,
      lua.run s.globals (s.stack.getD nargs .nil) (s.stack.take nargs).reverse = (globals, .error msg) ∧
        pcall lua nargs nresults s = ({ s with globals, stack := msg :: s.stack.drop (nargs + 1) },
        false) := by
  cases hrun : lua.run s.globals (s.stack.getD nargs .nil) (s.stack.take nargs).reverse with
  | mk globals outcome =>
    cases outcome with
    | ok results => exact .inl ⟨globals, results, rfl, by simp only [pcall, hrun]⟩
    | error msg => exact .inr ⟨globals, msg, rfl, by simp only [pcall, hrun]⟩

/-- A protected call leaves its results or one error message. -/
theorem gettop_pcall (lua : Lua G) {nargs : Nat} (nresults : Nat) {s : Luabash G} (h : nargs < s.gettop) :
    (pcall lua nargs nresults s).1.gettop + nargs + 1 =
      s.gettop + if (pcall lua nargs nresults s).2 then nresults else 1 := by
  have hlt : nargs < s.stack.length := h
  rcases pcall_cases lua nargs nresults s with ⟨globals, results, _, hcall⟩ | ⟨globals, msg, _, hcall⟩
  · rw [hcall]
    simp only [Luabash.gettop, List.length_append, List.length_reverse, length_adjust, List.length_drop,
      if_true]
    omega
  · rw [hcall]
    simp only [Luabash.gettop, List.length_cons, List.length_drop, Bool.false_eq_true, if_false]
    omega

theorem pcall_chunk (lua : Lua G) (s : Luabash G) (chunk : LuaValue) :
    (pcall lua 0 0 (s.push chunk)).2 = (lua.run s.globals chunk []).2.isOk := by
  have hrun : lua.run (s.push chunk).globals ((s.push chunk).stack.getD 0 .nil)
      ((s.push chunk).stack.take 0).reverse = lua.run s.globals chunk [] := rfl
  rcases pcall_cases lua 0 0 (s.push chunk) with ⟨globals, results, h, hcall⟩ | ⟨globals, msg, h, hcall⟩
  · rw [hcall, ← hrun, h]
    rfl
  · rw [hcall, ← hrun, h]
    rfl

theorem initialized_pcall (lua : Lua G) (nargs nresults : Nat) (s : Luabash G) :
    (pcall lua nargs nresults s).1.initialized = s.initialized := by
  rcases pcall_cases lua nargs nresults s with ⟨globals, results, _, hcall⟩ | ⟨globals, msg, _, hcall⟩
  · rw [hcall]
  · rw [hcall]

theorem initLuabash_initialized (lua : Lua G) (bashVersion : Option Str) {s : Luabash G}
    (h : s.initialized = true) : initLuabash lua bashVersion s = (s, executionSuccess) := by
  unfold initLuabash
  rw [if_pos h]

theorem gettop_words (argv : List Str) (s : Luabash G) :
    (argv.foldl (fun s word => s.push (.string word)) s).gettop = s.gettop + argv.length := by
  induction argv generalizing s with
  | nil => rfl
  | cons word argv ih =>
    rw [List.foldl_cons, ih, Luabash.gettop_push, List.length_cons]
    omega

theorem initialized_words (argv : List Str) (s : Luabash G) :
    (argv.foldl (fun s word => s.push (.string word)) s).initialized = s.initialized := by
  induction argv generalizing s with
  | nil => rfl
  | cons word argv ih => rw [List.foldl_cons, ih, Luabash.initialized_push]

theorem loadChunk_spec (lua : Lua G) (bashVersion : Option Str) (filename : Str) {s : Luabash G}
    (h : s.initialized = true) :
    (loadChunk lua bashVersion filename s).1.initialized = true ∧
      (loadChunk lua bashVersion filename s).1.gettop =
        s.gettop + if leavesValue lua s ["load".toList, filename] then 1 else 0 := by
  have hleaves : leavesValue lua s ["load".toList, filename] =
      match lua.loadfile s.globals filename with
      | .error _ => true
      | .ok chunk => !(lua.run s.globals chunk []).2.isOk := rfl
  rw [hleaves, loadChunk, initLuabash_initialized lua bashVersion h]
  simp only [ne_eq, not_true_eq_false, if_false]
  cases hload : lua.loadfile s.globals filename with
  | error msg => exact ⟨h, rfl⟩
  | ok chunk =>
    have htop := gettop_pcall lua 0 (show 0 < (s.push chunk).gettop by simp)
    have hinit := initialized_pcall lua 0 0 (s.push chunk)
    rw [pcall_chunk] at htop
    simp only [← pcall_chunk, Luabash.gettop_push] at htop ⊢
    generalize pcall lua 0 0 (s.push chunk) = called at htop hinit ⊢
    rcases called with ⟨s', ok⟩
    cases ok with
    | true => exact ⟨hinit.trans h, by simpa using htop⟩
    | false => exact ⟨hinit.trans h, by simpa [gettop_luaErrmsg] using htop⟩

theorem callFunction_spec (lua : Lua G) (func : Str) (argv : List Str) {s : Luabash G}
    (h : s.initialized = true) :
    (callFunction lua func argv s).1.initialized = true ∧
      (callFunction lua func argv s).1.gettop = s.gettop + 1 := by
  have hwords := gettop_words argv (s.push (lua.getglobal s.globals func))
  have hready := initialized_words argv (s.push (lua.getglobal s.globals func))
  rw [callFunction, h]
  simp only [Bool.not_true, Bool.false_eq_true, if_false]
  generalize argv.foldl (fun s word => s.push (.string word)) (s.push (lua.getglobal s.globals func)) = pushed
    at hwords hready ⊢
  rw [Luabash.gettop_push] at hwords
  have htop := gettop_pcall lua 1 (show argv.length < pushed.gettop by omega)
  have hinit := (initialized_pcall lua argv.length 1 pushed).trans (hready.trans h)
  generalize pcall lua argv.length 1 pushed = called at htop hinit ⊢
  rcases called with ⟨s', ok⟩
  have hone : s'.gettop = s.gettop + 1 := by
    rw [ite_self] at htop
    dsimp only at htop
    omega
  cases ok with
  | false => exact ⟨hinit, hone⟩
  | true =>
    dsimp only at hinit ⊢
    -- each return type leaves the value that was looked at
    cases s'.stack.headD .nil with
    | nil => exact ⟨hinit, hone⟩
    | boolean b => exact ⟨hinit, hone⟩
    | number n => exact ⟨hinit, hone⟩
    | string text => exact ⟨hinit, hone⟩
    | object type => exact ⟨hinit, hone⟩

theorem step_spec (lua : Lua G) (bashVersion : Option Str) {s : Luabash G} (h : s.initialized = true)
    (words : List Str) :
    (step lua bashVersion s words).initialized = true ∧
      (step lua bashVersion s words).gettop = s.gettop + if leavesValue lua s words then 1 else 0 := by
  rcases words with _ | ⟨command, list⟩
  · exact ⟨h, rfl⟩
  by_cases hinit : command = "init".toList
  · subst hinit
    have hsame : step lua bashVersion s ("init".toList :: list) = s := by
      show (initLuabash lua bashVersion s).1 = s
      rw [initLuabash_initialized lua bashVersion h]
    rw [hsame]
    cases list with
    | nil => exact ⟨h, rfl⟩
    | cons word list => exact ⟨h, rfl⟩
  by_cases hload : command = "load".toList
  · subst hload
    cases list with
    | nil => exact ⟨h, rfl⟩
    | cons filename list => exact loadChunk_spec lua bashVersion filename h
  by_cases hcall : command = "call".toList
  · subst hcall
    cases list with
    | nil => exact ⟨h, rfl⟩
    | cons func argv => exact callFunction_spec lua func argv h
  · have husage : step lua bashVersion s (command :: list) = printUsage s := by
      simp only [step, luabashBuiltin, hinit, hload, hcall, if_false]
    rw [husage]
    cases list with
    | nil => exact ⟨h, rfl⟩
    | cons word list =>
      rw [leavesValue, if_neg hcall, if_neg hload]
      exact ⟨h, rfl⟩

theorem initialized_run (lua : Lua G) (bashVersion : Option Str) {s : Luabash G} (h : s.initialized = true)
    (commands : List (List Str)) : (commands.foldl (step lua bashVersion) s).initialized = true := by
  induction commands generalizing s with
  | nil => exact h
  | cons words commands ih => exact ih (step_spec lua bashVersion h words).1

/-- The number of commands that leave a value, each in the state it finds. -/
def leftover (lua : Lua G) (bashVersion : Option Str) : Luabash G → List (List Str) → Nat
  | _, [] => 0
  | s, words :: commands =>
    (if leavesValue lua s words then 1 else 0) +
    leftover lua bashVersion (step lua bashVersion s words) commands

/-- The stack grows by one value for each of them. -/
theorem gettop_run (lua : Lua G) (bashVersion : Option Str) (commands : List (List Str)) {s : Luabash G}
    (h : s.initialized = true) :
    (commands.foldl (step lua bashVersion) s).gettop = s.gettop + leftover lua bashVersion s commands := by
  induction commands generalizing s with
  | nil => rfl
  | cons words commands ih =>
    obtain ⟨hinit, htop⟩ := step_spec lua bashVersion h words
    rw [List.foldl_cons, ih hinit, htop, leftover]
    omega

theorem leftover_calls (lua : Lua G) (bashVersion : Option Str) (s : Luabash G) (calls : List (List Str)) :
    leftover lua bashVersion s (calls.map fun argv => "call".toList :: "f".toList :: argv) =
    calls.length := by
  induction calls generalizing s with
  | nil => rfl
  | cons argv calls ih =>
    rw [List.map_cons, leftover, ih, List.length_cons, Nat.add_comm]
    rfl

/-- After each command the stack is as high as it was at first exactly if no command leaves a
value: none is a call, and no load fails. -/
theorem gettop_unchanged_iff (lua : Lua G) (bashVersion : Option Str) {s : Luabash G}
    (h : s.initialized = true) (commands : List (List Str)) :
    (∀ done, done <+: commands → (done.foldl (step lua bashVersion) s).gettop = s.gettop) ↔
      ∀ done words, done ++ [words] <+: commands →
        leavesValue lua (done.foldl (step lua bashVersion) s) words = false := by
  have hlast (done : List (List Str)) (words : List Str) :
      ((done ++ [words]).foldl (step lua bashVersion) s).gettop =
        (done.foldl (step lua bashVersion) s).gettop +
          if leavesValue lua (done.foldl (step lua bashVersion) s) words then 1 else 0 := by
    rw [List.foldl_append]
    exact (step_spec lua bashVersion (initialized_run lua bashVersion h done) words).2
  constructor
  · intro hsame done words hrun
    have hbefore := hsame done ((List.prefix_append done [words]).trans hrun)
    have hafter := hsame (done ++ [words]) hrun
    rw [hlast, hbefore] at hafter
    cases hleaves : leavesValue lua (done.foldl (step lua bashVersion) s) words with
    | false => rfl
    | true =>
      rw [hleaves, if_pos rfl] at hafter
      omega
  · intro hquiet done
    induction done using List.reverseRecOn with
    | nil => exact fun _ => rfl
    | append_singleton done words ih =>
      intro hrun
      rw [hlast, hquiet done words hrun, ih ((List.prefix_append done [words]).trans hrun)]
      rfl

/-- A Lua with a function `nothing` that returns no result. -/
def sampleLua : Lua Unit where
  libs := ()
  loadfile := fun _ _ => .error (.string "cannot open".toList)
  getglobal := fun _ name => if name = "nothing".toList then .object "function".toList else .nil
  run := fun _ func _ =>
    if func = .object "function".toList then ((), .ok [])
    else ((), .error (.string "attempt to call a nil value".toList))

/-- The builtin before its first command. -/
def fresh : Luabash Unit where
  initialized := false
  currentFlavor := .unknown
  globals := ()
  stack := []
  printed := []

def sampleState : Luabash Unit := (initLuabash sampleLua (some "5.1.16".toList) fresh).1

theorem gettop_unchanged_iff_sample :
    sampleState.gettop = 1 ∧ ∀ done, done <+: [["init".toList], ["init".toList]] →
      (done.foldl (step sampleLua (some "5.1.16".toList)) sampleState).gettop = sampleState.gettop := by
  refine ⟨by decide +kernel, (gettop_unchanged_iff sampleLua _ (by decide +kernel) _).2 ?_⟩
  rintro done words ⟨rest, hrun⟩
  have hmem : words ∈ [["init".toList], ["init".toList]] := by
    rw [← hrun]
    simp
  have hinit : words = ["init".toList] := by simpa using hmem
  rw [hinit]
  rfl

/-- Two calls of a function that returns nothing leave two values. -/
theorem call_leaves_value :
    ¬∀ done, done <+: [["call".toList, "nothing".toList], ["call".toList, "nothing".toList]] →
      (done.foldl (step sampleLua (some "5.1.16".toList)) sampleState).gettop = sampleState.gettop := by
  intro hsame
  have hall := hsame _ List.prefix_rfl
  exact absurd hall (by decide +kernel)

end T2SDE.LuaBash
