import T2SDE.Lib.LuaSteps

namespace Lua

open Text

section Parse

variable {fuel : Nat} {c : Char} {s : Str}

theorem parseSteps_char (hc : c ∉ ['(', ')', '$', '.', '%', '[']) (hq : parseQuantifier s = (.one, s)) :
    parseSteps (fuel + 1) (c :: s) = .item (.single (.char c) .one) :: parseSteps fuel s := by
  simp only [List.mem_cons, List.not_mem_nil, or_false, not_or] at hc
  obtain ⟨hopen, hclose, hend, hany, hpercent, hset⟩ := hc
  have hclass : parseClass (c :: s) = some (.char c, s) := by
    unfold parseClass
    split <;> simp_all
  have hstep : parseStep (c :: s) = some (.item (.single (.char c) .one), s) := by
    simp [parseStep, hopen, hclose, hend, hpercent, hclass, hq]
  rw [parseSteps, hstep]

theorem parseSteps_percent (hc : (c == 'b' || c == 'f' || c.isDigit) = false)
    (hq : parseQuantifier s = (.one, s)) :
    parseSteps (fuel + 1) ('%' :: c :: s) = .item (.single (.percent c) .one) :: parseSteps fuel s := by
  have hstep : parseStep ('%' :: c :: s) = some (.item (.single (.percent c) .one), s) := by
    have hb : c ≠ 'b' ∧ c ≠ 'f' ∧ c.isDigit = false := by simpa [and_assoc] using hc
    simp [parseStep, parseClass, hb, hq]
  rw [parseSteps, hstep]

theorem parseSteps_anyStar (fuel : Nat) (s : Str) :
    parseSteps (fuel + 1) ('.' :: '*' :: s) = .item (.single .any .star) :: parseSteps fuel s := by
  simp [parseSteps, parseStep, parseClass, parseQuantifier]

end Parse

section Subst

variable {pattern : Str} {cls : CharClass}

theorem gsubLoop_class (repl : List Str → Str) {fuel : Nat} {s : Str} (hfuel : s.length < fuel) :
    gsubLoop [.openCapture, .single cls .one, .closeCapture] repl fuel s =
      s.flatMap fun c => if cls.admits c then repl [[c]] else [c] := by
  induction fuel generalizing s with
  | zero => exact absurd hfuel (by simp)
  | succ fuel ih =>
    cases s with
    | nil => rfl
    | cons c s =>
      have ih := ih (by simpa using hfuel)
      rw [List.flatMap_cons, gsubLoop]
      cases ha : cls.admits c with
      | false => simp [doMatch, ha, ih]
      | true =>
        have hm : doMatch [.openCapture, .single cls .one, .closeCapture] (c :: s) [] =
            some (s, [.text [c]]) := doMatch_oneCapture ha s rfl
        rw [hm]
        simp [Found.texts, Capture.string, ih]

theorem gsub_class (hc : compile pattern = some ⟨false, [.openCapture, .single cls .one, .closeCapture]⟩)
    (repl : List Str → Str) (s : Str) :
    gsub s pattern repl = s.flatMap fun c => if cls.admits c then repl [[c]] else [c] := by
  rw [gsub, hc]
  exact gsubLoop_class repl (Nat.lt_succ_self _)

theorem doMatch_any (s : Str) (cs : List Capture) : doMatch [.single .any .star] s cs = some ([], cs) := by
  have hrun : doMatch [.single .any .star] (s ++ []) cs = some ([], cs) :=
    doMatch_skip (fun _ _ => rfl) (stops_nil _) rfl
  rwa [List.append_nil] at hrun

theorem gsubLoop_tail (d : Char) {fuel : Nat} {s : Str} (hfuel : s.length < fuel) :
    gsubLoop [.single (.char d) .one, .single .any .star] (fun _ => []) fuel s =
      s.takeWhile (· ≠ d) := by
  induction fuel generalizing s with
  | zero => exact absurd hfuel (by simp)
  | succ fuel ih =>
    cases s with
    | nil => rfl
    | cons c s =>
      have hs : s.length < fuel := by simpa using hfuel
      rw [gsubLoop]
      by_cases hd : c = d
      · subst hd
        rw [doMatch_char (doMatch_any s [])]
        simp [ih (s := []) (by simpa using Nat.zero_lt_of_lt hs)]
      · simp [doMatch, CharClass.admits, hd, Ne.symm hd, ih hs]

theorem gsub_tail {d : Char}
    (hc : compile pattern = some ⟨false, [.single (.char d) .one, .single .any .star]⟩) (s : Str) :
    gsub s pattern (fun _ => []) = s.takeWhile (· ≠ d) := by
  rw [gsub, hc]
  exact gsubLoop_tail d (Nat.lt_succ_self _)

end Subst

section Split

def splitItems (d : Char) : List Item :=
  [.openCapture, .single .any .star, .closeCapture, .single (.char d) .one,
    .openCapture, .single .any .star, .closeCapture]

variable {pattern a b s : Str} {d : Char}

theorem doMatch_char_none {items : List Item} (hd : d ∉ s) (cs : List Capture) :
    doMatch (.single (.char d) .one :: items) s cs = none := by
  cases s with
  | nil => rfl
  | cons c s =>
    have hc : d ≠ c := fun hc => hd (by simp [hc])
    simp [doMatch, CharClass.admits, hc]

theorem doMatch_split_none (hd : d ∉ s) : doMatch (splitItems d) s [] = none := by
  rw [splitItems, doMatch_starCapture]
  refine maxExpand_eq_none ?_
  rintro run rest rfl
  exact doMatch_char_none (fun h => hd (by simp [h])) _

theorem doMatch_split (hd : d ∉ b) :
    doMatch (splitItems d) (a ++ d :: b) [] = some ([], [.text b, .text a]) := by
  rw [splitItems, doMatch_starCapture]
  refine maxExpand_append (fun _ _ => rfl) (maxExpand_back ?_ ?_)
  · refine maxExpand_eq_none ?_
    rintro run rest rfl
    exact doMatch_char_none (fun h => hd (by simp [h])) _
  · rw [between_append]
    refine doMatch_char ?_
    have hrun : doMatch [.openCapture, .single .any .star, .closeCapture] (b ++ []) [.text a] =
        some ([], [.text b, .text a]) :=
      doMatch_starField (fun _ _ => rfl) (stops_nil _) rfl
    rwa [List.append_nil] at hrun

theorem strMatch_split (hc : compile pattern = some ⟨false, splitItems d⟩) (hd : d ∉ b) :
    strMatch (a ++ d :: b) pattern = some [a, b] :=
  strMatch_start (by simp) hc (doMatch_split hd)

theorem strMatch_split_none (hc : compile pattern = some ⟨false, splitItems d⟩) (hd : d ∉ s) :
    strMatch s pattern = none := by
  have hsearch : searchFrom (splitItems d) s = none := by
    induction s with
    | nil => rw [searchFrom, doMatch_split_none hd, Option.map_none]
    | cons c s ih =>
      rw [searchFrom, doMatch_split_none hd]
      exact ih fun h => hd (by simp [h])
  rw [strMatch, hc, Option.bind_some, search, if_neg (by simp), hsearch, Option.map_none]

end Split

section Search

theorem strMatches_char {pattern : Str} {d : Char} (hanchor : pattern.head? ≠ some '^')
    (hsteps : parseSteps pattern.length pattern = [.item (.single (.char d) .one)]) (s : Str) :
    strMatches s pattern = some (decide (d ∈ s)) := by
  have hsearch : ∀ t, (matchFrom s [.item (.single (.char d) .one)] t).bind succeeded =
    some (decide (d ∈ t)) := by
    intro t
    induction t with
    | nil => rfl
    | cons c t ih =>
      rw [matchFrom]
      by_cases hd : d = c
      · subst hd
        simp [matchSteps, CharClass.admits, succeeded]
      · simp [matchSteps, CharClass.admits, hd, ih]
  rw [strMatches, if_neg hanchor, hsteps, hsearch]

end Search

end Lua
