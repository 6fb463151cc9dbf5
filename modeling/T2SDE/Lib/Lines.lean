import T2SDE.Lib.Text

namespace Text

/-- `head -n` -/
def headLines : Nat → Str → Str
  | 0, _ => []
  | _ + 1, [] => []
  | n + 1, c :: s => if c = '\n' then c :: headLines n s else c :: headLines (n + 1) s

/-- `tail -n +k`, for the number of lines that it leaves out. -/
def dropLines : Nat → Str → Str
  | 0, s => s
  | _ + 1, [] => []
  | n + 1, c :: s => if c = '\n' then dropLines n s else dropLines (n + 1) s

/-- Every line has its newline. -/
def Terminated (s : Str) : Prop := ∀ c ∈ s.getLast?, c = '\n'

section Lines

variable {n : Nat} {s t w : Str} {c : Char}

theorem headLines_append_dropLines (n : Nat) (s : Str) : headLines n s ++ dropLines n s = s := by
  induction s generalizing n with
  | nil => cases n with
    | zero => rfl
    | succ n => rfl
  | cons c s ih =>
    cases n with
    | zero => rfl
    | succ n =>
      rw [headLines, dropLines]
      split
      next => exact congrArg (c :: ·) (ih n)
      next => exact congrArg (c :: ·) (ih (n + 1))

theorem fileLines_newline (s : Str) : fileLines ('\n' :: s) = [] :: fileLines s := rfl

theorem fileLines_cons (hc : c ≠ '\n') (s : Str) :
    fileLines (c :: s) = (c :: (fileLines s).headD []) :: (fileLines s).tail := by
  rw [fileLines, if_neg hc]
  cases fileLines s with
  | nil => rfl
  | cons line lines => rfl

theorem fileLines_headLines (n : Nat) (s : Str) : fileLines (headLines n s) = (fileLines s).take n := by
  induction s generalizing n with
  | nil => cases n with
    | zero => rfl
    | succ n => rfl
  | cons c s ih =>
    cases n with
    | zero => rfl
    | succ n =>
      rw [headLines]
      split
      next hc =>
        subst hc
        rw [fileLines_newline, fileLines_newline, ih, List.take_succ_cons]
      next hc =>
        rw [fileLines_cons hc, fileLines_cons hc, ih, List.take_succ_cons]
        cases fileLines s with
        | nil => simp
        | cons line lines => rfl

theorem fileLines_dropLines (n : Nat) (s : Str) : fileLines (dropLines n s) = (fileLines s).drop n := by
  induction s generalizing n with
  | nil => cases n with
    | zero => rfl
    | succ n => rfl
  | cons c s ih =>
    cases n with
    | zero => rfl
    | succ n =>
      rw [dropLines]
      split
      next hc =>
        subst hc
        rw [fileLines_newline, ih, List.drop_succ_cons]
      next hc =>
        rw [fileLines_cons hc, ih, List.drop_succ_cons, List.drop_tail]

theorem fileLines_ne_nil (hs : s ≠ []) : fileLines s ≠ [] := by
  obtain ⟨c, t, rfl⟩ := List.exists_cons_of_ne_nil hs
  by_cases hc : c = '\n'
  · subst hc
    exact List.cons_ne_nil _ _
  · rw [fileLines_cons hc]
    exact List.cons_ne_nil _ _

theorem terminated_nil : Terminated [] := fun _ hc => absurd hc (by simp)

theorem terminated_cons (hs : s ≠ []) : Terminated (c :: s) ↔ Terminated s := by
  obtain ⟨d, t, rfl⟩ := List.exists_cons_of_ne_nil hs
  exact Iff.rfl

theorem Terminated.tail (h : Terminated (c :: s)) : Terminated s := by
  by_cases hs : s = []
  · exact hs ▸ terminated_nil
  · exact (terminated_cons hs).mp h

theorem fileLines_append (h : Terminated s) (t : Str) : fileLines (s ++ t) = fileLines s ++ fileLines t := by
  induction s with
  | nil => rfl
  | cons c s ih =>
    have hs := ih h.tail
    by_cases hc : c = '\n'
    · subst hc
      rw [List.cons_append, fileLines_newline, fileLines_newline, hs]
      rfl
    · have hne : s ≠ [] := by
        rintro rfl
        exact hc (h c rfl)
      obtain ⟨line, lines, hlines⟩ := List.exists_cons_of_ne_nil (fileLines_ne_nil hne)
      rw [List.cons_append, fileLines_cons hc, fileLines_cons hc, hs, hlines]
      rfl

theorem dropLines_eq_nil (h : (fileLines s).length ≤ n) : dropLines n s = [] := by
  by_contra hne
  refine fileLines_ne_nil hne ?_
  rw [fileLines_dropLines, List.drop_eq_nil_of_le h]

theorem headLines_eq_self (h : (fileLines s).length ≤ n) : headLines n s = s := by
  have hsplit := headLines_append_dropLines n s
  rwa [dropLines_eq_nil h, List.append_nil] at hsplit

theorem headLines_eq_nil (h : headLines (n + 1) s = []) : s = [] := by
  cases s with
  | nil => rfl
  | cons c s =>
    rw [headLines] at h
    split at h
    next => exact absurd h (List.cons_ne_nil _ _)
    next => exact absurd h (List.cons_ne_nil _ _)

/-- Lines in front of another one have their newlines. -/
theorem terminated_headLines (h : dropLines n s ≠ []) : Terminated (headLines n s) := by
  induction s generalizing n with
  | nil => cases n with
    | zero => exact terminated_nil
    | succ n => exact absurd rfl h
  | cons c s ih =>
    cases n with
    | zero => exact terminated_nil
    | succ n =>
      rw [dropLines] at h
      rw [headLines]
      split at h
      next hc =>
        rw [if_pos hc]
        by_cases hempty : headLines n s = []
        · rw [hempty]
          exact fun d hd => (Option.some.inj hd).symm.trans hc
        · exact (terminated_cons hempty).mpr (ih h)
      next hc =>
        rw [if_neg hc]
        have hne : headLines (n + 1) s ≠ [] := by
          intro hempty
          obtain rfl := headLines_eq_nil hempty
          exact h rfl
        exact (terminated_cons hne).mpr (ih h)

/-- Behind a last line without a newline a text only continues that line. -/
theorem length_fileLines_continued (h : ¬Terminated s) (hw : '\n' ∉ w) :
    (fileLines (s ++ (w ++ ['\n']))).length = (fileLines s).length := by
  induction s with
  | nil => exact absurd terminated_nil h
  | cons c s ih =>
    by_cases hs : s = []
    · subst hs
      have hc : c ≠ '\n' := fun hc => h fun d hd => (Option.some.inj hd).symm.trans hc
      have hline : '\n' ∉ c :: w := by simp [Ne.symm hc, hw]
      have htext : [c] ++ (w ++ ['\n']) = (c :: w) ++ '\n' :: [] := by simp
      rw [htext, fileLines_line hline, fileLines_cons hc]
      rfl
    · have hlen := ih fun hs' => h ((terminated_cons hs).mpr hs')
      rw [List.cons_append]
      by_cases hc : c = '\n'
      · subst hc
        rw [fileLines_newline, fileLines_newline, List.length_cons, List.length_cons, hlen]
      · rw [fileLines_cons hc, fileLines_cons hc, List.length_cons, List.length_cons, List.length_tail,
          List.length_tail,
          hlen]

end Lines

end Text
