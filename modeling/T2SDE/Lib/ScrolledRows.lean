import Mathlib.Data.List.Basic

namespace ScrolledRows

variable {β : Type}

/-- The rows of a window over a list, from an entry of it on. -/
def view (f : Nat → β) (top n : Nat) : List β := (List.range n).map fun i => f (top + i)

variable {f : Nat → β} {top n i : Nat}

theorem length_view (f : Nat → β) (top n : Nat) : (view f top n).length = n := by
  rw [view, List.length_map, List.length_range]

theorem view_first (f : Nat → β) (top n : Nat) : view f top (n + 1) = f top :: view f (top + 1) n := by
  rw [view, List.range_succ_eq_map, List.map_cons, List.map_map]
  refine congrArg (f top :: ·) (List.map_congr_left fun i _ => ?_)
  dsimp only [Function.comp_apply]
  rw [show top + i.succ = top + 1 + i by omega]

theorem view_last (f : Nat → β) (top n : Nat) : view f top (n + 1) = view f top n ++ [f (top + n)] := by
  rw [view, List.range_succ, List.map_append]
  rfl

theorem view_set (f : Nat → β) (top : Nat) (hi : i < n) :
    (view f top n).set i (f (top + i)) = view f top n := by
  have hget : (view f top n)[i]? = some (f (top + i)) := by
    rw [view, List.getElem?_map, List.getElem?_range hi]
    rfl
  obtain ⟨hlt, heq⟩ := List.getElem?_eq_some_iff.mp hget
  rw [← heq, List.set_getElem_self]

/-- Another row for one entry. -/
theorem view_select (x : β) :
    (view f top n).set i x = view (fun k => if k = top + i then x else f k) top n := by
  refine List.ext_getElem (by rw [List.length_set, length_view, length_view]) fun j hj hj' => ?_
  simp only [view, List.getElem_set, List.getElem_map, List.getElem_range]
  by_cases hij : i = j
  · rw [if_pos hij, if_pos (by omega)]
  · rw [if_neg hij, if_neg (by omega)]

/-- The window is moved down, and the row that comes in at its top is printed. -/
theorem view_down (blank : β) (htop : 0 < top) (hn : 0 < n) :
    (blank :: view f top n).dropLast.set 0 (f (top - 1)) = view f (top - 1) n := by
  obtain ⟨m, rfl⟩ : ∃ m, n = m + 1 := ⟨n - 1, by omega⟩
  rw [view_last, ← List.cons_append, List.dropLast_concat, List.set_cons_zero, view_first,
    show top - 1 + 1 = top by omega]

/-- The window is moved up, and the row that comes in at its end is printed. -/
theorem view_up (f : Nat → β) (top : Nat) (blank : β) (hn : 0 < n) :
    ((view f top n).tail ++ [blank]).set (n - 1) (f (top + n)) = view f (top + 1) n := by
  obtain ⟨m, rfl⟩ : ∃ m, n = m + 1 := ⟨n - 1, by omega⟩
  have hlength := length_view f (top + 1) m
  rw [view_first, List.tail_cons, Nat.add_sub_cancel, List.set_append_right _ _ (by omega), hlength,
    Nat.sub_self,
    List.set_cons_zero, view_last, show top + 1 + m = top + (m + 1) by omega]

/-- A loop that sets one row after the other. -/
theorem set_rows (f : Nat → β) (top : Nat) {r : List β} (hn : n ≤ r.length) :
    (List.range n).foldl (fun r i => r.set i (f (top + i))) r = view f top n ++ r.drop n := by
  induction n with
  | zero => rfl
  | succ m ih =>
    have hlength := length_view f top m
    rw [List.range_succ, List.foldl_append, ih (by omega), List.foldl_cons, List.foldl_nil,
      List.set_append_right _ _ (by omega), hlength, Nat.sub_self,
      List.drop_eq_getElem_cons (by omega : m < r.length), List.set_cons_zero, view_last, List.append_assoc]
    rfl

end ScrolledRows
