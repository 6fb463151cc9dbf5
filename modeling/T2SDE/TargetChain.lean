import Mathlib.Data.List.DropRight
import T2SDE.Lib.Chain
import T2SDE.Lib.CString
import T2SDE.Lib.ShellFields

namespace T2SDE.TargetChain

open Text ShellFields Chain

/-- What is under `target`: the regular files by their paths. -/
structure Tree where
  file : Str → Option Str
  contents : List Str
  finite : ∀ path text, file path = some text → text ∈ contents

section Functions

def extendsPath (x : Str) : Str := "target/".toList ++ (x ++ "/extends".toList)

/-- `$(< file)` -/
def substituted (text : Str) : Str := (text.filter (· != CString.nul)).rdropWhile (· == '\n')

/-- The base of a target, if `-f` finds its file. -/
def base (tree : Tree) (x : Str) : Option Str := (tree.file (extendsPath x)).map substituted

/-- The loop, with `targetchain` and `x`; nothing while it has not ended. -/
def chainLoop (tree : Tree) : Nat → Str → Str → Option Str
  | 0, _, _ => none
  | fuel + 1, targetchain, x =>
    match base tree x with
    | none => some targetchain
    | some y => chainLoop tree fuel (targetchain ++ ' ' :: y) y

/-- The scripts with the loop. -/
inductive Script
  | parseConfig
  | configIn
  | download

/-- `target`, as each of them has it. -/
def Script.target (SDECFG_TARGET : Str) : Script → Str
  | .parseConfig => if SDECFG_TARGET = [] then "none".toList else SDECFG_TARGET
  | .configIn => SDECFG_TARGET
  | .download => if SDECFG_TARGET = [] then "none".toList else SDECFG_TARGET

def Script.targetchain (tree : Tree) (fuel : Nat) (SDECFG_TARGET : Str) (script : Script) : Option Str :=
  chainLoop tree fuel (script.target SDECFG_TARGET) (script.target SDECFG_TARGET)

end Functions

open Relation

/-- A target names the other in its file. -/
def Extends (tree : Tree) : Str → Str → Prop := Edge (base tree)

/-- The names are those of a target and of its bases, each once, and the chain is made of them. -/
structure Lists (tree : Tree) (target : Str) (names : List Str) (targetchain : Str) : Prop where
  text : targetchain = [' '].intercalate names
  first : names.head? = some target
  next : names.IsChain (Extends tree)
  all : ∀ x, x ∈ names ↔ ReflTransGen (Extends tree) target x
  once : names.Nodup
  words : (∀ x ∈ names, x ≠ [] ∧ ∀ c ∈ x, c ∉ [' ', '\t', '\n']) →
    fields [' ', '\t', '\n'] targetchain = names

section Loop

variable {tree : Tree} {x target chain targetchain : Str} {names : List Str} {fuel : Nat}

def joined (targetchain : Str) (names : List Str) : Str := targetchain ++ names.flatMap (' ' :: ·)

theorem joined_eq (x : Str) (names : List Str) : joined x names = [' '].intercalate (x :: names) := by
  induction names generalizing x with
  | nil =>
    rw [joined, List.flatMap_nil, List.append_nil]
    simp [List.intercalate]
  | cons y names ih =>
    rw [intercalate_cons, ← ih, joined, joined, List.flatMap_cons, List.cons_append]

end Loop

end T2SDE.TargetChain
