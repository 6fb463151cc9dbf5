import T2SDE.QueueScan

namespace T2SDE

open Text Awk

theorem split_append_blank (a b : Str) : split (a ++ ' ' :: b) = split a ++ split b :=
  tokens_append_sep rfl a b

theorem split_digits : ∀ stagelevel < 10, split (digits stagelevel) = [digits stagelevel] := by
  decide

theorem split_subStart (line : Str) :
    ∃ first, split (subStart "X ".toList ("0".toList ++ " ".toList) line) = first ++ (split line).tail ∧
      first.length = (split line).length - (split line).tail.length := by
  by_cases hp : "X ".toList <+: line
  · obtain ⟨r, rfl⟩ := hp
    have hold : split ("X ".toList ++ r) = "X".toList :: split r := split_append_blank "X".toList r
    have hnew : subStart "X ".toList ("0".toList ++ " ".toList) ("X ".toList ++ r) =
        "0".toList ++ ' ' :: r := by
      rw [subStart, if_pos (List.prefix_append _ _)]
      rfl
    exact ⟨["0".toList], by rw [hnew, split_append_blank, hold]; rfl, by rw [hold]; simp⟩
  · refine ⟨(split line).take 1, ?_, ?_⟩
    · rw [subStart, if_neg hp]
      cases split line <;> simp
    · cases split line <;> simp

theorem split_subEnd (line : Str) :
    ∃ last, split (subEnd " 0".toList (" ".toList ++ "60".toList) line) = (split line).dropLast ++ last ∧
      last.length = (split line).length - (split line).dropLast.length := by
  by_cases hp : " 0".toList <:+ line
  · obtain ⟨r, rfl⟩ := hp
    have hold : split (r ++ " 0".toList) = split r ++ ["0".toList] := split_append_blank r "0".toList
    have hnew : subEnd " 0".toList (" ".toList ++ "60".toList) (r ++ " 0".toList) =
        r ++ ' ' :: "60".toList := by
      rw [subEnd, if_pos (List.suffix_append _ _)]
      simp [replacement]
    exact ⟨["60".toList], by rw [hnew, split_append_blank, hold]; simp; rfl, by rw [hold]; simp⟩
  · refine ⟨(split line).drop ((split line).length - 1), ?_, by simp⟩
    rw [subEnd, if_neg hp, List.dropLast_eq_take, List.take_append_drop]

theorem field_line_one {j : Job} (hs : j.stagelevel < 10) :
    field (split j.line) 1 = digits j.stagelevel := by
  have h : j.line = digits j.stagelevel ++ ' ' :: subEnd " 0".toList (" ".toList ++ "60".toList)
      (subStart "X ".toList ("0".toList ++ " ".toList) j.pkgline) := by
    simp [Job.line, queueLine]
  rw [h, split_append_blank, split_digits _ hs]
  rfl

theorem field_line_succ {j : Job} {i : Nat} (hs : j.stagelevel < 10) (hi : 2 ≤ i)
    (hlen : i < (split j.pkgline).length) :
    field (split j.line) (i + 1) = field (split j.pkgline) i := by
  have h : j.line = digits j.stagelevel ++ ' ' :: subEnd " 0".toList (" ".toList ++ "60".toList)
      (subStart "X ".toList ("0".toList ++ " ".toList) j.pkgline) := by
    simp [Job.line, queueLine]
  obtain ⟨first, hfirst, hflen⟩ := split_subStart j.pkgline
  obtain ⟨last, hlast, hllen⟩ :=
    split_subEnd (subStart "X ".toList ("0".toList ++ " ".toList) j.pkgline)
  obtain ⟨w, ws, hw⟩ := List.exists_cons_of_length_pos (show 0 < (split j.pkgline).length by omega)
  rw [hw] at hfirst hflen hlen
  simp only [List.tail_cons, List.length_cons] at hfirst hflen hlen
  obtain ⟨x, rfl⟩ := List.length_eq_one_iff.mp (show first.length = 1 by omega)
  rw [hfirst] at hlast hllen
  obtain ⟨k, rfl⟩ : ∃ k, i = k + 2 := ⟨i - 2, by omega⟩
  rw [h, split_append_blank, split_digits _ hs, hlast, hw]
  have hk : k + 1 < ([x] ++ ws).dropLast.length := by simp; omega
  have hget : (([x] ++ ws).dropLast ++ last)[k + 1]? = ws[k]? := by
    rw [List.getElem?_append_left hk, List.getElem?_dropLast, if_pos (by simpa using hk)]
    rfl
  simp only [field, List.singleton_append, List.getD_eq_getElem?_getD,
    List.getElem?_cons_succ, show k + 2 + 1 - 1 = k + 1 + 1 by omega, show k + 2 - 1 = k + 1 by omega]
  rw [← hget]
  rfl

end T2SDE
