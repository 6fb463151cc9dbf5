import Mathlib.Data.List.Basic

namespace Memory

variable {α : Type} {buffer xs : List α} {i : Nat}

/-- What stands in a memory behind the writing of a text at an index. -/
def overwrite (buffer : List α) (i : Nat) (xs : List α) : List α :=
  buffer.take i ++ xs ++ buffer.drop (i + xs.length)

/-- The same where the text fits, and none where it does not. -/
def store (buffer : List α) (i : Nat) (xs : List α) : Option (List α) :=
  if i + xs.length ≤ buffer.length then some (overwrite buffer i xs) else none

theorem length_overwrite (h : i + xs.length ≤ buffer.length) : (overwrite buffer i xs).length = buffer.length := by
  simp only [overwrite, List.length_append, List.length_take, List.length_drop]
  omega

theorem take_overwrite (h : i ≤ buffer.length) (xs : List α) :
    (overwrite buffer i xs).take (i + xs.length) = buffer.take i ++ xs := by
  have hlength : (buffer.take i ++ xs).length = i + xs.length := by
    rw [List.length_append, List.length_take, Nat.min_eq_left h]
  rw [overwrite, ← hlength, List.take_left]

theorem drop_overwrite (h : i ≤ buffer.length) (xs : List α) :
    (overwrite buffer i xs).drop i = xs ++ buffer.drop (i + xs.length) := by
  have hlength : (buffer.take i).length = i := by rw [List.length_take, Nat.min_eq_left h]
  rw [overwrite, List.append_assoc]
  nth_rewrite 1 [← hlength]
  exact List.drop_left

theorem overwrite_full (h : i + xs.length = buffer.length) : overwrite buffer i xs = buffer.take i ++ xs := by
  rw [overwrite, h, List.drop_length, List.append_nil]

end Memory
