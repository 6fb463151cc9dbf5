import T2SDE.CmdWrapper

namespace T2SDE

open Text CString

theorem cleanStep_run {ch : Char} {seps : Str} (hs : ∀ c ∈ seps, (c == ch) = true) (acc : Str) :
    seps.foldl (cleanStep ch) (acc, true) = (acc, true) := by
  induction seps with
  | nil => rfl
  | cons c seps ih =>
    have hc := hs c (by simp)
    rw [List.foldl_cons, cleanStep, if_pos hc, if_pos rfl]
    exact ih fun x hx => hs x (by simp [hx])

theorem cleanStep_word {ch : Char} {tok : Str} (hne : tok ≠ []) (ht : ∀ c ∈ tok, (c == ch) = false)
    (acc : Str) (delim : Bool) :
    tok.foldl (cleanStep ch) (acc, delim) = (acc ++ tok, false) := by
  induction tok generalizing acc delim with
  | nil => exact absurd rfl hne
  | cons c tok ih =>
    have hc := ht c (by simp)
    rw [List.foldl_cons, cleanStep, if_neg (by simp [hc])]
    cases tok with
    | nil => rfl
    | cons d tok => rw [ih (by simp) fun x hx => ht x (by simp [hx])]; simp

theorem getLast_word {ch : Char} {tok : Str} (hne : tok ≠ []) (ht : ∀ c ∈ tok, (c == ch) = false)
    (a : Str) : (a ++ tok).getLast? ≠ some ch := by
  intro h
  rw [List.getLast?_append_of_ne_nil a hne] at h
  have hmem := List.mem_of_getLast? h
  simpa using ht ch hmem

theorem cleanLoop_view {ch : Char} {s : Str} {ws : List Str} (hv : TokenView (· == ch) s ws) (acc : Str) :
    let tmp2 := (s.foldl (cleanStep ch) (acc ++ [ch], true)).1
    (if tmp2.getLast? = some ch then tmp2.dropLast else tmp2) = [ch].intercalate (acc :: ws) := by
  induction hv generalizing acc with
  | blank hs => simp [cleanStep_run hs, List.intercalate]
  | @last seps tok hs hne ht =>
    rw [List.foldl_append, cleanStep_run hs, cleanStep_word hne ht]
    simp only [getLast_word hne ht, if_false]
    simp [List.intercalate]
  | @next seps tok rest d ws hs hne ht hd _ ih =>
    obtain rfl : d = ch := by simpa using hd
    have hstep : cleanStep d (acc ++ [d] ++ tok, false) d = (acc ++ [d] ++ tok ++ [d], true) := by
      simp [cleanStep]
    rw [List.foldl_append, cleanStep_run hs, List.foldl_append, cleanStep_word hne ht, List.foldl_cons,
      hstep]
    have hrest := ih (acc ++ [d] ++ tok)
    cases ws <;> simpa [List.intercalate] using hrest

/-- `cleanenv` leaves the words of the variable, with one delimiter between them. -/
theorem cleanenv_eq (ch : Char) (value : Option Str) :
    cleanenv ch value = some ([ch].intercalate (tokens (· == ch) (value.getD []))) := by
  have hv := tokens_view (· == ch) (value.getD [])
  simp only [cleanenv]
  generalize value.getD [] = s at hv ⊢
  generalize tokens (· == ch) s = ws at hv
  cases hv with
  | blank hs => simp [cleanStep_run hs, List.intercalate]
  | @last seps tok hs hne ht =>
    have hlast := getLast_word hne ht []
    rw [List.foldl_append, cleanStep_run hs, cleanStep_word hne ht]
    simp only [hlast, if_false]
    simp [List.intercalate]
  | @next seps tok rest d ws hs hne ht hd hrest =>
    obtain rfl : d = ch := by simpa using hd
    have hstep : cleanStep d ([] ++ tok, false) d = (tok ++ [d], true) := by
      simp [cleanStep]
    rw [List.foldl_append, cleanStep_run hs, List.foldl_append, cleanStep_word hne ht, List.foldl_cons,
      hstep]
    simp only [cleanLoop_view hrest]

theorem tokens_cleaned (ch : Char) (s : Str) :
    tokens (· == ch) ([ch].intercalate (tokens (· == ch) s)) = tokens (· == ch) s :=
  tokens_intercalate (by simp) fun _ hw => mem_tokens hw

theorem not_mem_cleaned {c ch : Char} {s : Str} (hc : c ∉ s) (hne : c ≠ ch) :
    c ∉ [ch].intercalate (tokens (· == ch) s) := by
  intro h
  rcases mem_intercalate h with rfl | ⟨w, hw, hcw⟩
  · exact hne rfl
  · exact hc (mem_of_mem_tokens hw hcw)

end T2SDE
