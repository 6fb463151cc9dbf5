import Mathlib.Algebra.GroupWithZero.Nat
import T2SDE.Lib.Text

/-!
Lists joined with a separator, and what becomes of their empty entries.
-/

namespace Text

section Joined

variable {α : Type} [BEq α] [LawfulBEq α] {d : α}

theorem tokens_eq_filter (d : α) (s : List α) :
    tokens (· == d) s = (s.splitOn d).filter (!·.isEmpty) := by
  induction hn : s.length using Nat.strongRecOn generalizing s with
  | _ n ih =>
    by_cases hd : d ∈ s
    · obtain ⟨w, rest, rfl⟩ := List.append_of_mem hd
      simp only [List.length_append, List.length_cons] at hn
      have hleft := ih w.length (by omega) w rfl
      have hright := ih rest.length (by omega) rest rfl
      have hcut : tokens (· == d) (w ++ d :: rest) = tokens (· == d) w ++ tokens (· == d) rest :=
        tokens_append_sep (by simp) w rest
      rw [hcut, List.splitOn_append_cons_self, List.filter_append, hleft, hright]
    · have hfree : ∀ c ∈ s, (c == d) = false := fun c hc => by
        simpa using fun h : c = d => hd (h ▸ hc)
      rw [tokens_free hfree, List.splitOn_eq_singleton hd]
      cases s <;> rfl

theorem mem_parts {s w : List α} (hw : w ∈ s.splitOn d) : d ∉ w ∧ ∀ c ∈ w, c ∈ s := by
  induction s generalizing w with
  | nil =>
    rw [List.splitOn_nil, List.mem_singleton] at hw
    simp [hw]
  | cons c s ih =>
    obtain ⟨v, vs, hv⟩ := List.exists_cons_of_ne_nil (List.splitOn_ne_nil d s)
    rw [List.splitOn_cons_eq_if_modifyHead, hv] at hw
    rw [hv] at ih
    by_cases hc : c = d
    · simp only [hc, beq_self_eq_true, if_true, List.mem_cons] at hw
      rcases hw with rfl | hw
      · simp
      · obtain ⟨hfree, hmem⟩ := ih (List.mem_cons.mpr hw)
        exact ⟨hfree, fun x hx => List.mem_cons_of_mem c (hmem x hx)⟩
    · simp only [beq_eq_false_iff_ne.mpr hc, Bool.false_eq_true, if_false, List.modifyHead_cons,
        List.mem_cons] at hw
      rcases hw with rfl | hw
      · obtain ⟨hfree, hmem⟩ := ih List.mem_cons_self
        refine ⟨?_, ?_⟩
        · intro h
          rcases List.mem_cons.mp h with h | h
          · exact hc h.symm
          · exact hfree h
        · intro x hx
          rcases List.mem_cons.mp hx with rfl | hx
          · exact List.mem_cons_self
          · exact List.mem_cons_of_mem c (hmem x hx)
      · obtain ⟨hfree, hmem⟩ := ih (List.mem_cons_of_mem v hw)
        exact ⟨hfree, fun x hx => List.mem_cons_of_mem c (hmem x hx)⟩

theorem splitOn_joined {l : List (List α)} (hne : l ≠ []) :
    ([d].intercalate l).splitOn d = l.flatMap (·.splitOn d) := by
  induction l with
  | nil => exact absurd rfl hne
  | cons w l ih =>
    cases l with
    | nil => simp [List.intercalate]
    | cons v l =>
      rw [intercalate_cons, List.splitOn_append_cons_self, ih (List.cons_ne_nil v l), ← List.flatMap_cons]

omit [BEq α] [LawfulBEq α] in
theorem length_joined (d : α) (l : List (List α)) :
    ([d].intercalate l).length = (l.map List.length).sum + (l.length - 1) := by
  induction l with
  | nil => rfl
  | cons w l ih =>
    cases l with
    | nil => simp [List.intercalate]
    | cons v l =>
      rw [intercalate_cons, List.length_append, List.length_cons, ih]
      simp only [List.map_cons, List.sum_cons, List.length_cons]
      omega

omit [BEq α] [LawfulBEq α] in
theorem intercalate_ne_nil {d : α} {l : List (List α)} (hl : [] ∉ l) (hne : l ≠ []) :
    [d].intercalate l ≠ [] := by
  obtain ⟨w, l, rfl⟩ := List.exists_cons_of_ne_nil hne
  have hw : w ≠ [] := fun h => hl (by simp [h])
  cases l with
  | nil => simpa [List.intercalate] using hw
  | cons v l => simp [List.intercalate]

omit [BEq α] [LawfulBEq α] in
theorem length_joined_le (d : α) {l l' : List (List α)} (h : l.Sublist l') :
    ([d].intercalate l).length ≤ ([d].intercalate l').length := by
  have hsum : (l.map List.length).sum ≤ (l'.map List.length).sum := by
    induction h with
    | slnil => exact Nat.le_refl _
    | cons w _ ih =>
      rw [List.map_cons, List.sum_cons]
      omega
    | cons_cons w _ ih =>
      simp only [List.map_cons, List.sum_cons]
      omega
  have hlen := h.length_le
  rw [length_joined, length_joined]
  omega

omit [BEq α] [LawfulBEq α] in
theorem sum_nonempty (l : List (List α)) :
    ((l.filter (!·.isEmpty)).map List.length).sum = (l.map List.length).sum := by
  induction l with
  | nil => rfl
  | cons w l ih =>
    cases w with
    | nil => simpa using ih
    | cons c w => simpa using ih

omit [BEq α] [LawfulBEq α] in
/-- Empty entries can be left out only where there are none, or where the one entry is empty. -/
theorem joined_nonempty_iff (d : α) (l : List (List α)) :
    [d].intercalate (l.filter (!·.isEmpty)) = [d].intercalate l ↔ [] ∉ l ∨ l = [[]] := by
  constructor
  · intro h
    by_cases hmem : [] ∈ l
    · have hlen := congrArg List.length h
      rw [length_joined, length_joined, sum_nonempty] at hlen
      have hlt : (l.filter (!·.isEmpty)).length < l.length := by
        refine lt_of_le_of_ne (List.length_filter_le _ l) fun heq => ?_
        simpa using List.length_filter_eq_length_iff.mp heq [] hmem
      have hone : l.length = 1 := by omega
      obtain ⟨w, rfl⟩ := List.length_eq_one_iff.mp hone
      rw [List.mem_singleton] at hmem
      exact .inr (by rw [← hmem])
    · exact .inl hmem
  · rintro (h | rfl)
    · rw [List.filter_eq_self.mpr]
      intro w hw
      cases w with
      | nil => exact absurd hw h
      | cons c w => rfl
    · rfl

theorem nil_mem_tail_splitOn (d : α) (s : List α) :
    [] ∈ (s.splitOn d).tail ↔ s.getLast? = some d ∨ [d, d] <:+: s := by
  induction s with
  | nil => simp [List.splitOn_nil]
  | cons c s ih =>
    obtain ⟨w, ws, hw⟩ := List.exists_cons_of_ne_nil (List.splitOn_ne_nil d s)
    rw [List.splitOn_cons_eq_if_modifyHead, List.infix_cons_iff]
    rw [hw] at ih ⊢
    simp only [List.tail_cons] at ih
    by_cases hc : c = d
    · subst hc
      cases s with
      | nil =>
        rw [List.splitOn_nil] at hw
        simp [← (List.cons.inj hw).1]
      | cons e s =>
        have hhead : [] = w ↔ e = c := by
          rw [List.splitOn_cons_eq_if_modifyHead] at hw
          obtain ⟨v, vs, hv⟩ := List.exists_cons_of_ne_nil (List.splitOn_ne_nil c s)
          rw [hv] at hw
          by_cases he : e = c
          · simp only [he, beq_self_eq_true, if_true] at hw
            simp [← (List.cons.inj hw).1, he]
          · simp only [beq_eq_false_iff_ne.mpr he, Bool.false_eq_true, if_false, List.modifyHead_cons] at hw
            simp [← (List.cons.inj hw).1, he]
        simp only [beq_self_eq_true, if_true, List.tail_cons, List.mem_cons, List.getLast?_cons_cons,
          List.cons_prefix_cons, List.nil_prefix, true_and, and_true, hhead, ih]
        constructor
        · rintro (rfl | h | h)
          · exact .inr (.inl rfl)
          · exact .inl h
          · exact .inr (.inr h)
        · rintro (h | rfl | h)
          · exact .inr (.inl h)
          · exact .inl rfl
          · exact .inr (.inr h)
    · have hlast : (c :: s).getLast? = some d ↔ s.getLast? = some d := by
        cases s with
        | nil => simp [hc]
        | cons e s => rw [List.getLast?_cons_cons]
      have hpre : ¬[d, d] <+: c :: s := fun h => hc (List.cons_prefix_cons.mp h).1.symm
      simp [hc, hlast, hpre, ih]

/-- A text has an empty entry where it is empty, has a separator at an end, or has two next to each other. -/
theorem nil_mem_splitOn (d : α) (s : List α) :
    [] ∈ s.splitOn d ↔ s = [] ∨ s.head? = some d ∨ s.getLast? = some d ∨ [d, d] <:+: s := by
  have htail := nil_mem_tail_splitOn d s
  cases s with
  | nil => simp [List.splitOn_nil]
  | cons c s =>
    obtain ⟨w, ws, hw⟩ := List.exists_cons_of_ne_nil (List.splitOn_ne_nil d s)
    rw [List.splitOn_cons_eq_if_modifyHead, hw] at htail ⊢
    by_cases hc : c = d
    · simp [hc]
    · have hhead : ((c :: s).head? = some d) = False := by simp [hc]
      simp only [beq_eq_false_iff_ne.mpr hc, Bool.false_eq_true, if_false, List.modifyHead_cons,
        List.tail_cons] at htail ⊢
      simp only [List.mem_cons, reduceCtorEq, false_or, hhead, htail]

end Joined

end Text
