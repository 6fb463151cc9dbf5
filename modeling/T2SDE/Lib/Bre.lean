import Mathlib.Data.List.Infix
import T2SDE.Lib.Text

namespace Bre

open Text

/-- A basic regular expression without brackets, repetitions and backslashes. -/
structure Pattern where
  start : Bool
  body : Str
  stop : Bool

def parse (pat : Str) : Pattern :=
  let start := pat.head? == some '^'
  let body := if start then pat.tail else pat
  let stop := body.getLast? == some '$'
  ⟨start, if stop then body.dropLast else body, stop⟩

/-- What is left of a text behind the characters of a pattern, where a dot stands for any. -/
def behind : Str → Str → Option Str
  | [], s => some s
  | _ :: _, [] => none
  | c :: body, d :: s => if c = '.' ∨ c = d then behind body s else none

def Pattern.at (p : Pattern) (s : Str) : Bool := (behind p.body s).any fun rest => !p.stop || rest.isEmpty

/-- Whether `grep` finds the pattern in a line. -/
def search (pat line : Str) : Bool :=
  if (parse pat).start then (parse pat).at line else line.tails.any (parse pat).at

section Lemmas

variable {pat u v : Str}

theorem behind_self (body v : Str) : behind body (body ++ v) = some v := by
  induction body with
  | nil => rfl
  | cons c body ih => rw [List.cons_append, behind, if_pos (.inr rfl), ih]

/-- What has no anchors is found in each line that contains it. -/
theorem search_infix (hstart : pat.head? ≠ some '^') (hstop : pat.getLast? ≠ some '$') (h : pat <:+: u) :
    search pat u = true := by
  have hparse : parse pat = ⟨false, pat, false⟩ := by
    simp [parse, hstart, hstop]
  obtain ⟨s, t, rfl⟩ := h
  rw [search, hparse, if_neg Bool.false_ne_true, List.any_eq_true]
  refine ⟨pat ++ t, (List.mem_tails _ _).mpr ⟨s, by rw [List.append_assoc]⟩, ?_⟩
  rw [Pattern.at, behind_self]
  rfl

end Lemmas

end Bre
