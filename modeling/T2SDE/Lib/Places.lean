import T2SDE.Lib.Joined

/-!
Where the entries of a joined list begin and end.
-/

namespace Places

variable {α : Type}

/-- Where an entry begins, with a separator behind each entry in front of it. -/
def offset (ls : List (List α)) (k : Nat) : Nat := ((ls.take k).map (·.length + 1)).sum

/-- The same within the joined list; behind the last entry this is the end. -/
def place (d : α) (ls : List (List α)) (k : Nat) : Nat := min (offset ls k) ([d].intercalate ls).length

def line (ls : List (List α)) (k : Nat) : List α := ls.getD k []

variable {d : α} {ls : List (List α)} {k : Nat}

theorem offset_zero (ls : List (List α)) : offset ls 0 = 0 := rfl

theorem place_zero (d : α) (ls : List (List α)) : place d ls 0 = 0 := Nat.min_eq_left (Nat.zero_le _)

theorem offset_succ (hk : k < ls.length) : offset ls (k + 1) = offset ls k + (line ls k).length + 1 := by
  have hline : line ls k = ls[k] := by
    rw [line, List.getD_eq_getElem?_getD, List.getElem?_eq_getElem hk, Option.getD_some]
  rw [hline, offset, offset, List.take_add_one, List.getElem?_eq_getElem hk, List.map_append, List.sum_append]
  simp only [Option.toList_some, List.map_cons, List.map_nil, List.sum_cons, List.sum_nil]
  omega

theorem offset_pos (hk : 0 < k) (hne : ls ≠ []) : 0 < offset ls k := by
  obtain ⟨l, ls, rfl⟩ := List.exists_cons_of_ne_nil hne
  obtain ⟨k, rfl⟩ := Nat.exists_eq_add_of_lt hk
  rw [show 0 + k + 1 = k + 1 by omega, offset, List.take_succ_cons, List.map_cons, List.sum_cons]
  omega

theorem length_lead (d : α) (front : List (List α)) :
    (front.flatMap (· ++ [d])).length = (front.map (·.length + 1)).sum := by
  induction front with
  | nil => rfl
  | cons l front ih =>
    simp only [List.flatMap_cons, List.length_append, List.length_singleton, ih, List.map_cons, List.sum_cons]

theorem joined_append (front : List (List α)) {back : List (List α)} (hback : back ≠ []) :
    [d].intercalate (front ++ back) = front.flatMap (· ++ [d]) ++ [d].intercalate back := by
  induction front with
  | nil => rfl
  | cons l front ih =>
    obtain ⟨l', rest, hrest⟩ := List.exists_cons_of_ne_nil (List.append_ne_nil_of_right_ne_nil front hback)
    rw [List.cons_append, hrest, Text.intercalate_cons, ← hrest, ih, List.flatMap_cons, List.append_assoc,
      List.append_assoc, List.singleton_append]

/-- The list in front of an entry, the entry, and what is behind it. -/
theorem joined_split (hk : k < ls.length) :
    ∃ front back, [d].intercalate ls = front ++ line ls k ++ back ∧ front.length = offset ls k ∧
      (∀ c ∈ front.getLast?, c = d) ∧ (∀ c ∈ back.head?, c = d) ∧
      back.isEmpty = decide (ls.length ≤ k + 1) := by
  have hline : line ls k = ls[k] := by
    rw [line, List.getD_eq_getElem?_getD, List.getElem?_eq_getElem hk, Option.getD_some]
  have hdrop : ls.drop k = ls[k] :: ls.drop (k + 1) := List.drop_eq_getElem_cons hk
  have hjoined : [d].intercalate ls = (ls.take k).flatMap (· ++ [d]) ++ [d].intercalate (ls.drop k) := by
    conv_lhs => rw [← List.take_append_drop k ls]
    exact joined_append _ (by rw [hdrop]; exact List.cons_ne_nil _ _)
  have hlast : ∀ c ∈ ((ls.take k).flatMap (· ++ [d])).getLast?, c = d := by
    intro c hc
    cases htake : ls.take k using List.reverseRecOn with
    | nil => simp [htake] at hc
    | append_singleton front l =>
      rw [htake, List.flatMap_append, List.flatMap_singleton, ← List.append_assoc, List.getLast?_concat] at hc
      exact (Option.some.inj hc).symm
  rw [hline]
  cases hbehind : ls.drop (k + 1) with
  | nil =>
    have hend : ls.length ≤ k + 1 := List.drop_eq_nil_iff.mp hbehind
    refine ⟨_, [], ?_, length_lead d _, hlast, by simp, by simp [hend]⟩
    rw [hjoined, hdrop, hbehind, List.append_nil]
    simp [List.intercalate]
  | cons l rest =>
    have hmore : k + 1 < ls.length := by
      by_contra hend
      rw [List.drop_eq_nil_of_le (Nat.le_of_not_lt hend)] at hbehind
      exact List.cons_ne_nil _ _ hbehind.symm
    refine ⟨_, d :: [d].intercalate (l :: rest), ?_, length_lead d _, hlast, by simp, by simp; omega⟩
    rw [hjoined, hdrop, hbehind, Text.intercalate_cons, List.append_assoc]

/-- The end of an entry is within the joined list. -/
theorem offset_le (hk : k < ls.length) : offset ls k + (line ls k).length ≤ ([d].intercalate ls).length := by
  obtain ⟨front, back, hsplit, hfront, -⟩ := joined_split (d := d) hk
  rw [hsplit, List.length_append, List.length_append, hfront]
  omega

theorem place_eq (hk : k < ls.length) : place d ls k = offset ls k := by
  have hle := offset_le (d := d) hk
  exact Nat.min_eq_left (by omega)

/-- With a separator behind the last entry too, the list is one longer. -/
theorem offset_length (hne : ls ≠ []) : offset ls ls.length = ([d].intercalate ls).length + 1 := by
  obtain ⟨m, hm⟩ : ∃ m, ls.length = m + 1 := Nat.exists_eq_succ_of_ne_zero (by simpa using hne)
  have hlast : m < ls.length := by omega
  obtain ⟨front, back, hsplit, hfront, -, -, hback⟩ := joined_split (d := d) hlast
  have hempty : back = [] := List.isEmpty_iff.mp (by rw [hback]; simp; omega)
  rw [hm, offset_succ hlast, hsplit, hempty, List.append_nil, List.length_append, hfront]

theorem place_end (hne : ls ≠ []) (hk : ls.length ≤ k) : place d ls k = ([d].intercalate ls).length := by
  have hall : offset ls k = offset ls ls.length := by
    rw [offset, offset, List.take_of_length_le hk, List.take_length]
  rw [place, hall, offset_length (d := d) hne]
  omega

/-- From the place of an entry on, up to the place of the next one. -/
theorem drop_place (hne : ls ≠ []) (k : Nat) :
    ∃ back, ([d].intercalate ls).drop (place d ls k) = line ls k ++ back ∧ (∀ c ∈ back.head?, c = d) ∧
      back.isEmpty = decide (ls.length ≤ k + 1) ∧
      place d ls (k + 1) = place d ls k + (line ls k).length + (back.take 1).length := by
  by_cases hk : k < ls.length
  · obtain ⟨front, back, hsplit, hfront, -, hhead, hback⟩ := joined_split (d := d) hk
    refine ⟨back, ?_, hhead, hback, ?_⟩
    · rw [place_eq hk, hsplit, ← hfront, List.append_assoc, List.drop_left]
    · rw [place_eq hk, place, offset_succ hk, hsplit, List.length_append, List.length_append, hfront]
      cases back with
      | nil => simp
      | cons c back =>
        simp only [List.length_cons, List.take_succ_cons, List.take_zero, List.length_nil]
        omega
  · rw [place_end hne (by omega), place_end hne (by omega), List.drop_length]
    have hline : line ls k = [] := by
      rw [line, List.getD_eq_getElem?_getD, List.getElem?_eq_none (by omega), Option.getD_none]
    exact ⟨[], by rw [hline]; rfl, by simp, by simp; omega, by rw [hline]; rfl⟩

/-- In front of the separator before an entry. -/
theorem take_offset (hk : k < ls.length) :
    ∃ front, ([d].intercalate ls).take (offset ls (k + 1) - 1) = front ++ line ls k ∧
    front.length = offset ls k ∧
      ∀ c ∈ front.getLast?, c = d := by
  obtain ⟨front, back, hsplit, hfront, hlast, -, -⟩ := joined_split (d := d) hk
  refine ⟨front, ?_, hfront, hlast⟩
  have hlength : offset ls (k + 1) - 1 = (front ++ line ls k).length := by
    rw [offset_succ hk, List.length_append, hfront]
    omega
  rw [hsplit, hlength, List.take_left]

/-- Before an entry stands a separator. -/
theorem get_offset (hk : 0 < k) (hlt : k < ls.length) :
    ([d].intercalate ls)[offset ls k - 1]? = some d := by
  obtain ⟨front, back, hsplit, hfront, hlast, -⟩ := joined_split (d := d) hlt
  have hpos : 0 < offset ls k := offset_pos hk (List.ne_nil_of_length_pos (by omega))
  cases hfront' : front using List.reverseRecOn with
  | nil =>
    rw [hfront', List.length_nil] at hfront
    omega
  | append_singleton init c =>
    subst hfront'
    have hc : c = d := hlast c (by rw [List.getLast?_concat]; rfl)
    rw [← hfront, hsplit, List.length_append, List.length_singleton, Nat.add_sub_cancel, List.append_assoc,
      List.append_assoc, List.getElem?_append_right (Nat.le_refl _), Nat.sub_self, List.singleton_append,
      List.getElem?_cons_zero, hc]

end Places
