import T2SDE.Lib.Text

namespace ShellWord

open Text

def blank (c : Char) : Bool := c == ' ' || c == '\t'

/-- The characters that can stand for something else outside of quotes. -/
def special : Str := "$`\"&|;<>()[]{}*?!~".toList

/-- A word from inside or outside single quotes on, and the text behind it; none where a quote is not
closed or the shell would do more than remove quotes. -/
def word : Bool → Str → Option (Str × Str)
  | true, [] => none
  | true, c :: s =>
    if c = '\'' then word false s
    else (word true s).map fun found => (c :: found.1, found.2)
  | false, [] => some ([], [])
  | false, ['\\'] => some (['\\'], [])
  | false, '\\' :: c :: s =>
    if c = '\n' then word false s
    else (word false s).map fun found => (c :: found.1, found.2)
  | false, c :: s =>
    if blank c || c == '\n' then some ([], c :: s)
    else if c = '\'' then word true s
    else if c ∈ special then none
    else (word false s).map fun found => (c :: found.1, found.2)

/-- The text behind blanks and continued lines. -/
def skipBlank : Str → Str
  | [] => []
  | '\\' :: '\n' :: s => skipBlank s
  | c :: s => if blank c then skipBlank s else c :: s

/-- The words of a line and the text behind it, with fuel for the number of the words. -/
def words : Nat → Str → Option (List Str × Str)
  | 0, _ => none
  | fuel + 1, s =>
    match skipBlank s with
    | [] => some ([], [])
    | c :: t =>
      if c = '\n' then some ([], t)
      else if c = '#' then some ([], (t.dropWhile (· != '\n')).drop 1)
      else (word false (c :: t)).bind fun found =>
        (words fuel found.2).map fun rest => (found.1 :: rest.1, rest.2)

/-- The first command of a text, behind empty lines and comments. -/
def command : Nat → Str → Option (List Str × Str)
  | 0, _ => none
  | fuel + 1, s =>
    if s = [] then some ([], [])
    else (words (s.length + 1) s).bind fun found => if found.1 = [] then command fuel found.2 else some found

/-- The commands of a text. -/
def commands : Nat → Str → Option (List (List Str))
  | 0, _ => none
  | fuel + 1, s =>
    (command (s.length + 1) s).bind fun found =>
      if found.1 = [] then some [] else (commands fuel found.2).map (found.1 :: ·)

attribute [grind =] word skipBlank words

/-- A text for between single quotes: each quote closes them, is escaped, and opens them again. -/
def quote (v : Str) : Str := v.flatMap fun c => if c = '\'' then "'\\''".toList else [c]

/-- The number of the characters of a text that are neither quotes nor newlines. -/
def weight (s : Str) : Nat := s.countP fun c => c != '\'' && c != '\n'

/-- A character that the shell leaves alone. -/
def plain (c : Char) : Bool := !(blank c || c == '\n' || c == '\'' || c == '\\' || special.contains c)

section Weight

variable {s : Str} {c : Char}

theorem weight_append (a s : Str) : weight (a ++ s) = weight a + weight s := List.countP_append

theorem weight_head (c : Char) (s : Str) : weight (c :: s) = weight [c] + weight s := weight_append [c] s

theorem weight_cons (hc : c ≠ '\'' ∧ c ≠ '\n') (s : Str) : weight (c :: s) = weight s + 1 :=
  List.countP_cons_of_pos (by simpa using hc)

theorem weight_le_length (s : Str) : weight s ≤ s.length := List.countP_le_length

theorem weight_eq_length (hquote : '\'' ∉ s) (hnewline : '\n' ∉ s) : weight s = s.length := by
  refine List.countP_eq_length.mpr fun c hc => ?_
  have hboth : c ≠ '\'' ∧ c ≠ '\n' := ⟨fun h => hquote (h ▸ hc), fun h => hnewline (h ▸ hc)⟩
  simpa using hboth

end Weight

section Word

variable {s t w : Str} {c : Char}

theorem plain_of_not_mem (h : c ∉ ' ' :: '\t' :: '\n' :: '\'' :: '\\' :: special) : plain c = true := by
  simp only [List.mem_cons, not_or] at h
  simp [plain, blank, h]

theorem quote_cons (c : Char) (v : Str) :
    quote (c :: v) = (if c = '\'' then "'\\''".toList else [c]) ++ quote v := rfl

theorem word_quote (v s : Str) :
    word true (quote v ++ '\'' :: s) = (word false s).map fun found => (v ++ found.1, found.2) := by
  induction v with
  | nil => simp [quote, word]
  | cons c v ih =>
    rw [quote_cons]
    by_cases hc : c = '\''
    · subst hc
      show word true ('\'' :: '\\' :: '\'' :: '\'' :: (quote v ++ '\'' :: s)) = _
      simp [word, blank, ih, Function.comp_def]
    · rw [if_neg hc, List.singleton_append, List.cons_append, word, if_neg hc, ih, Option.map_map]
      rfl

theorem word_open (s : Str) : word false ('\'' :: s) = word true s := by
  simp [word, blank]

theorem word_cons (hc : c ≠ '\\') (s : Str) :
    word false (c :: s) =
      if blank c || c == '\n' then some ([], c :: s)
      else if c = '\'' then word true s
      else if c ∈ special then none
      else (word false s).map fun found => (c :: found.1, found.2) := by
  rw [word]
  · exact fun h => absurd h hc
  · exact fun _ _ h => absurd h hc

theorem word_stop (hc : (blank c || c == '\n') = true) (s : Str) :
    word false (c :: s) = some ([], c :: s) := by
  have hne : c ≠ '\\' := by
    rintro rfl
    exact absurd hc (by decide)
  rw [word_cons hne, if_pos hc]

theorem word_plain (hw : w.all plain = true) (s : Str) :
    word false (w ++ s) = (word false s).map fun found => (w ++ found.1, found.2) := by
  induction w with
  | nil => simp
  | cons c w ih =>
    rw [List.all_cons, Bool.and_eq_true] at hw
    have hc : (blank c || c == '\n') = false ∧ c ≠ '\'' ∧ c ≠ '\\' ∧ c ∉ special := by
      simpa [plain, and_assoc] using hw.1
    rw [List.cons_append, word_cons hc.2.2.1, if_neg (by simp [hc.1]), if_neg hc.2.1, if_neg hc.2.2.2,
      ih hw.2,
      Option.map_map]
    rfl

theorem map_push_eq_some {x : Option (Str × Str)}
    (h : (x.map fun found => (c :: found.1, found.2)) = some (w, t)) :
    ∃ v, x = some (v, t) ∧ w = c :: v := by
  obtain ⟨found, hx, heq⟩ := Option.map_eq_some_iff.mp h
  obtain ⟨rfl, rfl⟩ := Prod.mk.inj heq
  exact ⟨found.1, hx, rfl⟩

/-- Each character of a word is written with at least one that has weight. -/
theorem length_word {inside : Bool} (hw : '\n' ∉ w) (h : word inside s = some (w, t)) :
    w.length + weight t ≤ weight s := by
  fun_induction word inside s generalizing w with
  | case1 => exact absurd h (by simp)
  | case2 s ih => exact ih hw h
  | case3 c s hc ih =>
    obtain ⟨v, hv, rfl⟩ := map_push_eq_some h
    rw [List.mem_cons, not_or] at hw
    have := ih hw.2 hv
    rw [weight_cons ⟨hc, Ne.symm hw.1⟩, List.length_cons]
    omega
  | case4 =>
    obtain ⟨rfl, rfl⟩ := Prod.mk.inj (Option.some.inj h)
    exact Nat.le_refl _
  | case5 =>
    obtain ⟨rfl, rfl⟩ := Prod.mk.inj (Option.some.inj h)
    exact Nat.le_refl _
  | case6 s ih =>
    have := ih hw h
    rw [weight_cons (by decide)]
    exact Nat.le_succ_of_le this
  | case7 c s hc ih =>
    obtain ⟨v, hv, rfl⟩ := map_push_eq_some h
    have := ih (fun hmem => hw (List.mem_cons_of_mem c hmem)) hv
    rw [weight_cons (by decide), weight_head, List.length_cons]
    omega
  | case8 c s hs =>
    obtain ⟨rfl, rfl⟩ := Prod.mk.inj (Option.some.inj h)
    simp
  | case9 s _ _ _ ih => exact ih hw h
  | case10 => exact absurd h (by simp)
  | case11 c s _ _ hs hc _ ih =>
    obtain ⟨v, hv, rfl⟩ := map_push_eq_some h
    rw [List.mem_cons, not_or] at hw
    have := ih hw.2 hv
    rw [weight_cons ⟨hc, Ne.symm hw.1⟩, List.length_cons]
    omega

end Word

section Words

variable {fuel : Nat} {s t u w : Str} {c : Char} {ws : List Str}

theorem skipBlank_blank (hc : blank c = true) (s : Str) : skipBlank (c :: s) = skipBlank s := by
  have hne : c ≠ '\\' := by
    rintro rfl
    exact absurd hc (by decide)
  rw [skipBlank, if_pos hc]
  exact fun _ h => absurd h hne

theorem skipBlank_stop (hc : blank c = false) (hne : c ≠ '\\') (s : Str) : skipBlank (c :: s) = c :: s := by
  rw [skipBlank, hc]
  · rfl
  · exact fun _ h => absurd h hne

theorem words_blank (hc : blank c = true) (s : Str) : words fuel (c :: s) = words fuel s := by
  cases fuel with
  | zero => rfl
  | succ fuel => rw [words, words, skipBlank_blank hc]

theorem words_newline (s : Str) : words (fuel + 1) ('\n' :: s) = some ([], s) := by
  rw [words, skipBlank_stop (by decide) (by decide)]
  rfl

theorem words_comment {line : Str} (hline : '\n' ∉ line) (s : Str) :
    words (fuel + 1) ('#' :: (line ++ '\n' :: s)) = some ([], s) := by
  have hdrop : (line ++ '\n' :: s).dropWhile (· != '\n') = '\n' :: s := by
    rw [List.dropWhile_append_of_pos fun c hc => by simpa using fun h : c = '\n' => hline (h ▸ hc),
      List.dropWhile_cons_of_neg (by decide)]
  rw [words, skipBlank_stop (by decide) (by decide)]
  simp [hdrop]

/-- A text that starts a word. -/
theorem words_word (hblank : blank c = false) (hc : c ≠ '\\' ∧ c ≠ '\n' ∧ c ≠ '#')
    (h : word false (c :: s) = some (w, t)) :
    words (fuel + 1) (c :: s) = (words fuel t).map fun rest => (w :: rest.1, rest.2) := by
  rw [words, skipBlank_stop hblank hc.1]
  simp [hc.2, h]

/-- A word that starts with plain characters. -/
theorem words_plain (hw : w.all plain = true) (hne : w ≠ []) (hhash : w.head? ≠ some '#')
    (h : word false (w ++ s) = some (u, t)) :
    words (fuel + 1) (w ++ s) = (words fuel t).map fun rest => (u :: rest.1, rest.2) := by
  obtain ⟨c, v, rfl⟩ := List.exists_cons_of_ne_nil hne
  obtain ⟨hblank, hnewline, hback⟩ : blank c = false ∧ c ≠ '\n' ∧ c ≠ '\\' := by
    rw [List.all_cons, Bool.and_eq_true] at hw
    have hc : (blank c = false ∧ c ≠ '\n') ∧ c ≠ '\'' ∧ c ≠ '\\' ∧ c ∉ special := by
      simpa [plain, and_assoc] using hw.1
    exact ⟨hc.1.1, hc.1.2, hc.2.2.1⟩
  have hc : c ≠ '#' := fun h => hhash (congrArg some h)
  exact words_word hblank ⟨hback, hnewline, hc⟩ h

/-- A word of plain characters before a blank. -/
theorem words_plain_blank (hw : w.all plain = true) (hne : w ≠ []) (hhash : w.head? ≠ some '#') (s : Str) :
    words (fuel + 1) (w ++ ' ' :: s) = (words fuel s).map fun rest => (w :: rest.1, rest.2) := by
  have hword : word false (w ++ ' ' :: s) = some (w, ' ' :: s) := by
    rw [word_plain hw, word_stop (by decide)]
    simp
  rw [words_plain hw hne hhash hword, words_blank (by decide)]

/-- A quoted word, behind plain characters, that ends before a blank or a newline. -/
theorem word_quoted (hw : w.all plain = true) (v : Str) (hc : (blank c || c == '\n') = true) (s : Str) :
    word false (w ++ '\'' :: (quote v ++ '\'' :: c :: s)) = some (w ++ v, c :: s) := by
  rw [word_plain hw, word_open, word_quote, word_stop hc]
  simp

theorem words_quoted (v : Str) (hc : (blank c || c == '\n') = true) (s : Str) :
    words (fuel + 1) ('\'' :: (quote v ++ '\'' :: c :: s)) = (words fuel (c :: s)).map fun rest =>
    (v :: rest.1, rest.2) :=
  words_word (by decide) (by decide) (word_quoted (w := []) rfl v hc s)

theorem command_newline (s : Str) : command (fuel + 1) ('\n' :: s) = command fuel s := by
  rw [command, if_neg (List.cons_ne_nil _ _), words_newline]
  rfl

theorem command_comment {line : Str} (hline : '\n' ∉ line) (s : Str) :
    command (fuel + 1) ('#' :: (line ++ '\n' :: s)) = command fuel s := by
  rw [command, if_neg (List.cons_ne_nil _ _), words_comment hline]
  rfl

theorem weight_skipBlank (s : Str) : weight (skipBlank s) ≤ weight s := by
  fun_induction skipBlank s with
  | case1 => exact Nat.le_refl _
  | case2 s ih =>
    rw [weight_head '\\', weight_head '\n']
    omega
  | case3 c s _ _ ih =>
    rw [weight_head c]
    omega
  | case4 => exact Nat.le_refl _

theorem length_first_word (hw : '\n' ∉ w) (h : words fuel s = some (w :: ws, t)) : w.length ≤ weight s := by
  cases fuel with
  | zero => exact absurd h (by simp [words])
  | succ fuel =>
    have hskip := weight_skipBlank s
    rw [words] at h
    split at h
    next => exact absurd h (by simp)
    next c v hv =>
      split at h
      next => exact absurd h (by simp)
      split at h
      next => exact absurd h (by simp)
      obtain ⟨found, hword, h⟩ := Option.bind_eq_some_iff.mp h
      obtain ⟨rest, -, heq⟩ := Option.map_eq_some_iff.mp h
      obtain rfl : found.1 = w := (List.cons.inj (Prod.mk.inj heq).1).1
      have := length_word hw hword
      rw [hv] at hskip
      omega

end Words

section Quote

variable {v : Str}

theorem quote_free (h : '\'' ∉ v) : quote v = v := by
  induction v with
  | nil => rfl
  | cons c v ih =>
    have hc : c ≠ '\'' := fun heq => h (by simp [heq])
    rw [quote_cons, if_neg hc, ih fun hmem => h (by simp [hmem])]
    rfl

theorem weight_quote (h : '\n' ∉ v) : weight (quote v) = v.length := by
  induction v with
  | nil => rfl
  | cons c v ih =>
    rw [List.mem_cons, not_or] at h
    rw [quote_cons, weight_append, ih h.2, List.length_cons, Nat.add_comm]
    split
    next => rfl
    next hc => rw [weight_cons ⟨hc, Ne.symm h.1⟩]; rfl

end Quote

end ShellWord
