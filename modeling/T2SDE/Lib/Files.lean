import Mathlib.Logic.Function.Basic
import T2SDE.Lib.Text

namespace Disk

open Text

abbrev Data := List UInt8

/-- The files of a tree by their paths. -/
abbrev Tree := Str → Option Data

/-- A command that changes files. -/
inductive Op
  | write (path : Str) (data : Data)
  | move (src dst : Str)
  | link (src dst : Str)
  | remove (path : Str)
  deriving DecidableEq

namespace Op

def run : Op → Tree → Tree
  | write path data, t => Function.update t path (some data)
  | move src dst, t =>
    match t src with
    | none => t
    | some data => Function.update (Function.update t src none) dst (some data)
  | link src dst, t =>
    match t src with
    | none => t
    | some data => Function.update t dst (some data)
  | remove path, t => Function.update t path none

/-- What an interruption inside a command leaves: a part of what it writes. -/
def cut (n : Nat) : Op → Tree → Tree
  | write path data, t => Function.update t path (some (data.take n))
  | _, t => t

/-- The command changes a file. -/
def Touches (path : Str) : Op → Prop
  | write p _ | remove p => p = path
  | move src dst => src = path ∨ dst = path
  | link _ dst => dst = path

end Op

def runAll (ops : List Op) (t : Tree) : Tree := ops.foldl (fun t op => op.run t) t

/-- A run that is interrupted after so many commands, inside the next one. -/
def crash (ops : List Op) (k n : Nat) (t : Tree) : Tree :=
  match ops.drop k with
  | [] => runAll ops t
  | op :: _ => op.cut n (runAll (ops.take k) t)

variable {path src dst : Str} {data : Data} {t : Tree} {ops more : List Op} {op : Op} {k n : Nat}

@[simp] theorem runAll_nil (t : Tree) : runAll [] t = t := rfl

@[simp] theorem runAll_cons (op : Op) (ops : List Op) (t : Tree) :
    runAll (op :: ops) t = runAll ops (op.run t) := rfl

theorem runAll_append (ops more : List Op) (t : Tree) :
    runAll (ops ++ more) t = runAll more (runAll ops t) := by
  rw [runAll, runAll, runAll, List.foldl_append]

@[simp] theorem run_write (path : Str) (data : Data) (t : Tree) :
    (Op.write path data).run t path = some data :=
  Function.update_self _ _ _

/-- A file that is written beside its place and then moved there. -/
theorem run_write_move (src dst : Str) (data : Data) (t : Tree) :
    (Op.move src dst).run ((Op.write src data).run t) dst = some data := by
  have hsrc : (Op.write src data).run t src = some data := run_write src data t
  simp only [Op.run] at hsrc ⊢
  rw [hsrc]
  exact Function.update_self _ _ _

theorem run_of_not_touches (h : ¬op.Touches path) : op.run t path = t path := by
  cases op with
  | write p d => exact Function.update_of_ne (fun heq => h heq.symm) _ _
  | move src dst =>
    simp only [Op.Touches, not_or] at h
    cases hsrc : t src with
    | none => simp only [Op.run, hsrc]
    | some d =>
      simp only [Op.run, hsrc]
      rw [Function.update_of_ne (fun heq => h.2 heq.symm), Function.update_of_ne (fun heq => h.1 heq.symm)]
  | link src dst =>
    cases hsrc : t src with
    | none => simp only [Op.run, hsrc]
    | some d =>
      simp only [Op.run, hsrc]
      exact Function.update_of_ne (fun heq => h heq.symm) _ _
  | remove p => exact Function.update_of_ne (fun heq => h heq.symm) _ _

theorem cut_of_not_touches (h : ¬op.Touches path) : op.cut n t path = t path := by
  cases op with
  | write p d => exact Function.update_of_ne (fun heq => h heq.symm) _ _
  | move src dst => rfl
  | link src dst => rfl
  | remove p => rfl

end Disk
