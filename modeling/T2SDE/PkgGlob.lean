import T2SDE.PkgSwitch
import T2SDE.Lib.Glob
import T2SDE.Lib.LuaSubst

namespace T2SDE

open Text Lua

def nameChar (c : Char) : Bool := c.isAlphanum || ['_', '+', '-'].contains c

/-- A pattern over the characters of names, with wildcards and at most one slash. -/
def RulePattern (s : Str) : Prop :=
  (∀ c ∈ s, nameChar c = true ∨ c = '*' ∨ c = '/') ∧ s.count '/' ≤ 1

/-- The class that a literal character of a pattern is translated to. -/
def nameClass (c : Char) : CharClass := if c = '+' ∨ c = '-' then .percent c else .char c

theorem nameClass_admits (c d : Char) : (nameClass c).admits d = (c == d) := by
  unfold nameClass
  split
  · rename_i hc
    rcases hc with rfl | rfl <;> rfl
  · rfl

def charPattern (c : Char) : Str := if ['+', '*', '-'].contains c then tr [[c]] else [c]

theorem charPattern_wildcard : charPattern '*' = ['.', '*'] := rfl

theorem charPattern_escaped {c : Char} (hc : c = '+' ∨ c = '-') : charPattern c = ['%', c] := by
  rcases hc with rfl | rfl <;> rfl

theorem charPattern_plain {c : Char} (hw : c ≠ '*') (hc : ¬(c = '+' ∨ c = '-')) :
    charPattern c = [c] := by
  rw [not_or] at hc
  simp [charPattern, hw, hc]

theorem expand_eq (s : Str) : expand s = '^' :: (s.flatMap charPattern ++ ['$']) := by
  have hc : compile "([+*-])".toList = some ⟨false, [.openCapture,
      .single (.set false (['+', '*', '-'].map .char)) .one, .closeCapture]⟩ := by
    decide +kernel
  simp only [expand, gsub_class hc, admits_chars]
  rfl

/-- The characters that stand for themselves in a translated pattern, or for any text. -/
def literalChar (c : Char) : Bool := !(['(', ')', '$', '.', '%', '[', '?'].contains c)

theorem nameChar_literal {c : Char} (h : nameChar c = true ∨ c = '*') : literalChar c = true := by
  by_contra hc
  rw [literalChar, Bool.not_eq_true', Bool.not_eq_false, List.contains_eq_mem, decide_eq_true_eq] at hc
  simp only [List.mem_cons, List.not_mem_nil, or_false] at hc
  rcases hc with rfl | rfl | rfl | rfl | rfl | rfl | rfl
  all_goals exact absurd h (by decide)

theorem literalChar_not_mem {c : Char} (h : literalChar c = true) :
    c ∉ ['(', ')', '$', '.', '%', '[', '?'] := by
  simpa [literalChar] using h

variable {s : Str}

theorem parseQuantifier_expand (hs : ∀ c ∈ s, literalChar c = true) :
    parseQuantifier (s.flatMap charPattern ++ ['$']) = (.one, s.flatMap charPattern ++ ['$']) := by
  cases s with
  | nil => rfl
  | cons c s =>
    rw [List.flatMap_cons]
    by_cases hw : c = '*'
    · rw [hw, charPattern_wildcard]
      rfl
    · by_cases hc : c = '+' ∨ c = '-'
      · rw [charPattern_escaped hc]
        rfl
      · have hl := literalChar_not_mem (hs c (by simp))
        simp only [List.mem_cons, List.not_mem_nil, or_false, not_or] at hl hc
        rw [charPattern_plain hw (not_or.mpr hc), List.append_assoc, List.singleton_append, parseQuantifier]
        all_goals simp [hl, hc, hw]

theorem parseSteps_expand (hs : ∀ c ∈ s, literalChar c = true) {fuel : Nat}
    (hfuel : (s.flatMap charPattern ++ ['$']).length ≤ fuel) :
    parseSteps fuel (s.flatMap charPattern ++ ['$']) =
    (s.map (globItem nameClass) ++ [Item.atEnd]).map .item := by
  induction s generalizing fuel with
  | nil =>
    cases fuel with
    | zero => simp at hfuel
    | succ fuel => cases fuel with
      | zero => rfl
      | succ fuel => rfl
  | cons c s ih =>
    have hs' : ∀ x ∈ s, literalChar x = true := fun x hx => hs x (by simp [hx])
    have hq := parseQuantifier_expand hs'
    rw [List.flatMap_cons, List.append_assoc] at hfuel ⊢
    cases fuel with
    | zero => simp at hfuel
    | succ fuel =>
      by_cases hw : c = '*'
      · rw [hw, charPattern_wildcard] at hfuel ⊢
        have ih : parseSteps fuel _ = _ := ih hs' (by simp at hfuel ⊢; omega)
        simp only [List.cons_append, List.nil_append, parseSteps_anyStar, ih]
        rfl
      · by_cases hc : c = '+' ∨ c = '-'
        · rw [charPattern_escaped hc] at hfuel ⊢
          have ih : parseSteps fuel _ = _ := ih hs' (by simp at hfuel ⊢; omega)
          have hescape : (c == 'b' || c == 'f' || c.isDigit) = false := by
            rcases hc with rfl | rfl <;> rfl
          simp only [List.cons_append, List.nil_append, parseSteps_percent hescape hq, ih]
          simp [globItem, nameClass, hw, hc]
        · have hl := literalChar_not_mem (hs c (by simp))
          rw [charPattern_plain hw hc] at hfuel ⊢
          have ih : parseSteps fuel _ = _ := ih hs' (by simp at hfuel ⊢; omega)
          have hplain : c ∉ ['(', ')', '$', '.', '%', '['] := fun hm => hl (by simp at hm ⊢; tauto)
          simp only [List.cons_append, List.nil_append, parseSteps_char hplain hq, ih]
          simp [globItem, nameClass, hw, hc]

theorem strMatches_expand (hs : ∀ c ∈ s, literalChar c = true) (subject : Str) :
    strMatches subject (expand s) = some (glob s subject) := by
  rw [expand_eq]
  exact strMatches_glob (fun c _ _ d => nameClass_admits c d) (parseSteps_expand hs (Nat.le_succ _)) subject

theorem wildcard_mem_expand (s : Str) : '*' ∈ expand s ↔ '*' ∈ s := by
  have hc (c : Char) : '*' ∈ charPattern c ↔ c = '*' := by
    by_cases hw : c = '*'
    · subst hw
      decide
    · by_cases he : c = '+' ∨ c = '-'
      · rw [charPattern_escaped he]
        simp [Ne.symm hw, hw]
      · rw [charPattern_plain hw he]
        simp [Ne.symm hw, hw]
  rw [expand_eq]
  simp [List.mem_flatMap, hc]

/-- The globs of a pattern: of the repository, which is free without a slash, and of the package. -/
def patternGlobs (pattern : Str) : Str × Str :=
  if '/' ∈ pattern then (pattern.takeWhile (· ≠ '/'), (pattern.dropWhile (· ≠ '/')).tail)
  else (['*'], pattern)

theorem patternGlobs_slash {a : Str} (ha : '/' ∉ a) (b : Str) : patternGlobs (a ++ '/' :: b) = (a, b) := by
  have hall : ∀ c ∈ a, decide (c ≠ '/') = true := fun c hc => decide_eq_true fun h => ha (h ▸ hc)
  rw [patternGlobs, if_pos (by simp), List.takeWhile_append_of_pos hall, List.dropWhile_append_of_pos hall]
  simp

theorem exists_slash {pattern : Str} (hm : '/' ∈ pattern) (h : pattern.count '/' ≤ 1) :
    ∃ a b, pattern = a ++ '/' :: b ∧ '/' ∉ a ∧ '/' ∉ b := by
  obtain ⟨a, b, rfl, ha⟩ := List.eq_append_cons_of_mem hm
  refine ⟨a, b, rfl, ha, ?_⟩
  rw [List.count_append, List.count_cons_self] at h
  exact List.count_eq_zero.mp (by omega)

theorem compile_split : compile "(.*)/(.*)".toList = some ⟨false, splitItems '/'⟩ := by
  decide +kernel

theorem splitArg_eq {pattern : Str} (h : pattern.count '/' ≤ 1) :
    splitArg pattern = patternGlobs pattern := by
  unfold splitArg
  by_cases hm : '/' ∈ pattern
  · obtain ⟨a, b, rfl, ha, hb⟩ := exists_slash hm h
    rw [strMatch_split compile_split hb, patternGlobs_slash ha]
  · rw [strMatch_split_none compile_split hm, patternGlobs, if_neg hm]
    rfl

theorem patternGlobs_chars {pattern : Str} (h : RulePattern pattern) :
    (∀ c ∈ (patternGlobs pattern).1, nameChar c = true ∨ c = '*') ∧
      ∀ c ∈ (patternGlobs pattern).2, nameChar c = true ∨ c = '*' := by
  have hfree : ∀ s : Str, (∀ c ∈ s, c ∈ pattern) → '/' ∉ s → ∀ c ∈ s, nameChar c = true ∨ c = '*' := by
    intro s hs hslash c hc
    rcases h.1 c (hs c hc) with hn | hw | rfl
    · exact .inl hn
    · exact .inr hw
    · exact absurd hc hslash
  by_cases hm : '/' ∈ pattern
  · obtain ⟨a, b, rfl, ha, hb⟩ := exists_slash hm h.2
    rw [patternGlobs_slash ha]
    exact ⟨hfree a (by simp +contextual) ha, hfree b (by simp +contextual) hb⟩
  · rw [patternGlobs, if_neg hm]
    exact ⟨by simp, hfree pattern (fun _ hc => hc) hm⟩

end T2SDE
