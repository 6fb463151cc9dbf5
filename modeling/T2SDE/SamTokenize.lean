import T2SDE.Lib.CString

namespace T2SDE.SamTokenize

open Text CString

section Program

/-- `esc`: the last character was a backslash, `quote`: within a quotation. -/
structure Flags where
  esc : Bool
  quote : Bool
  deriving DecidableEq

structure Scan where
  pos : Option Nat
  last : Char
  flag : Flags
  tokens : List Str

/-- `strncpy` of the characters from one position to another one: what is behind a NUL is cleared. -/
def strncpy (s : Str) (pos p : Nat) : Str :=
  let src := ((s.drop pos).take (p - pos)).takeWhile (· != nul)
  src ++ List.replicate (p - pos - src.length) nul

/-- A token up to the position `p`; none where it has no start, which is an index outside of the string. -/
def endToken (s : Str) (p : Nat) (st : Scan) : Option Scan :=
  st.pos.map fun pos => { st with tokens := st.tokens ++ [strncpy s pos p] }

def startToken (p : Nat) (st : Scan) : Scan := if st.last = ' ' then { st with pos := some p } else st

/-- The body of the loop for the character `c` at the position `p`. -/
def step (s : Str) (p : Nat) (c : Char) (st : Scan) : Option Scan :=
  if !st.flag.esc then
    if c = '\\' then some { st with flag := { st.flag with esc := true }, last := c }
    else if c = '"' then
      if st.flag.quote then some { st with flag := { st.flag with quote := false }, last := c }
      else some { startToken p st with flag := { st.flag with quote := true }, last := c }
    else if !st.flag.quote then
      if c = ' ' ∨ c = '\t' then
        (if st.last ≠ ' ' then endToken s p st else some st).map fun st => { st with last := ' ' }
      else some { startToken p st with last := c }
    else some { st with last := c }
  else some { st with flag := { st.flag with esc := false }, last := c }

/-- The loop over the characters from the position `p`, and the end of the last token. -/
def scan (s : Str) : Nat → Str → Scan → Option (List Str)
  | p, [], st => if st.pos.isSome then (endToken s p st).map (·.tokens) else some st.tokens
  | p, c :: rest, st => (step s p c st).bind (scan s (p + 1) rest)

def tokenize (s : Str) : Option (List Str) := scan s 0 s ⟨none, ' ', ⟨false, false⟩, []⟩

end Program

section Purpose

def fresh : Flags := ⟨false, false⟩

/-- A backslash escapes the next character, double quotes toggle quoting. -/
def Flags.next (f : Flags) (c : Char) : Flags :=
  if f.esc then { f with esc := false }
  else if c = '\\' then { f with esc := true }
  else if c = '"' then { f with quote := !f.quote }
  else f

/-- An unquoted, unescaped blank or tab. -/
def Flags.separates (f : Flags) (c : Char) : Bool := !f.esc && !f.quote && (c == ' ' || c == '\t')

/-- The part in front of the first separator, and the tokens behind it. -/
def splitAux (f : Flags) : Str → Str × List Str
  | [] => ([], [])
  | c :: s =>
    let r := splitAux (f.next c) s
    if f.separates c then ([], consWord r.1 r.2) else (c :: r.1, r.2)

/-- The maximal substrings between separators. -/
def words (s : Str) : List Str := consWord (splitAux fresh s).1 (splitAux fresh s).2

/-- The string ends with a separator. -/
def EndsBlank (f : Flags) : Str → Prop
  | [] => False
  | c :: s => if s = [] then f.separates c = true else EndsBlank (f.next c) s

/-- Behind an escaped blank outside of quotes there is nothing, or a backslash. -/
def Unbroken (f : Flags) : Str → Prop
  | [] => True
  | c :: s => (f.esc = true → f.quote = false → c = ' ' → ∀ d ∈ s.head?, d = '\\') ∧ Unbroken (f.next c) s

/-- A token that is copied as it is: it does not begin with a backslash, and behind a NUL there
are others only. -/
def Copied (w : Str) : Prop := w.head? ≠ some '\\' ∧ ∀ c ∈ w.dropWhile (· != nul), c = nul

end Purpose

section Step

variable {s w t : Str} {f : Flags} {p : Nat} {c last : Char} {pos : Option Nat} {toks : List Str}

/-- A position where the scanner takes the start of a token. -/
def starts (f : Flags) (last c : Char) : Bool := !f.esc && !f.quote && c != '\\' && last == ' '

theorem separates_next (h : f.separates c = true) : f.next c = f ∧ f = fresh := by
  obtain ⟨esc, quote⟩ := f
  simp only [Flags.separates, Bool.and_eq_true, Bool.not_eq_true', Bool.or_eq_true, beq_iff_eq] at h
  obtain ⟨⟨rfl, rfl⟩, rfl | rfl⟩ := h <;> exact ⟨rfl, rfl⟩

theorem step_inside (h : f.separates c = false) :
    step s p c ⟨pos, last, f, toks⟩ =
      some ⟨if starts f last c then some p else pos, c, f.next c, toks⟩ := by
  obtain ⟨esc, quote⟩ := f
  cases esc with
  | true => simp [step, starts, Flags.next]
  | false =>
    by_cases hb : c = '\\'
    · simp [step, starts, Flags.next, hb]
    · by_cases hq : c = '"'
      · cases quote with
        | true => simp [step, starts, Flags.next, hq]
        | false => by_cases hl : last = ' ' <;> simp [step, starts, Flags.next, startToken, hq, hl]
      · cases quote with
        | true => simp [step, starts, Flags.next, hb, hq]
        | false =>
          have hblank : ¬(c = ' ' ∨ c = '\t') := by simpa [Flags.separates] using h
          by_cases hl : last = ' ' <;> simp [step, starts, Flags.next, startToken, hb, hq, hblank, hl]

theorem step_separator (h : f.separates c = true) :
    step s p c ⟨pos, last, f, toks⟩ =
      if last = ' ' then some ⟨pos, ' ', f, toks⟩
      else pos.map fun q => ⟨pos, ' ', f, toks ++ [strncpy s q p]⟩ := by
  obtain ⟨-, rfl⟩ := separates_next h
  have hblank : c = ' ' ∨ c = '\t' := by simpa [Flags.separates, fresh] using h
  have hb : c ≠ '\\' := by rcases hblank with rfl | rfl <;> decide
  have hq : c ≠ '"' := by rcases hblank with rfl | rfl <;> decide
  by_cases hl : last = ' '
  · simp [step, fresh, hb, hq, hblank, hl]
  · cases pos <;> simp [step, fresh, endToken, hb, hq, hblank, hl]

end Step

section Words

variable {s w t : Str} {f : Flags} {c : Char}

/-- A text without separators. -/
def Free (f : Flags) : Str → Prop
  | [] => True
  | c :: w => f.separates c = false ∧ Free (f.next c) w

def after (f : Flags) (w : Str) : Flags := w.foldl Flags.next f

theorem splitAux_free (h : Free f w) : splitAux f w = (w, []) := by
  induction w generalizing f with
  | nil => rfl
  | cons c w ih => simp [splitAux, h.1, ih h.2]

theorem splitAux_append (h : Free f w) (hc : (after f w).separates c = true) (s : Str) :
    splitAux f (w ++ c :: s) = (w, words s) := by
  induction w generalizing f with
  | nil =>
    have hc : f.separates c = true := hc
    obtain ⟨hnext, rfl⟩ := separates_next hc
    rw [List.nil_append, splitAux, if_pos hc, hnext, words]
  | cons d w ih => simp [splitAux, h.1, ih h.2 hc]

theorem words_separator (hc : fresh.separates c = true) (s : Str) : words (c :: s) = words s := by
  rw [words, show splitAux fresh (c :: s) = _ from splitAux_append (w := []) trivial hc s]
  rfl

theorem words_last (hne : w ≠ []) (h : Free fresh w) : words w = [w] := by
  rw [words, splitAux_free h]
  cases w with
  | nil => exact absurd rfl hne
  | cons c w => rfl

theorem words_cons (hne : w ≠ []) (h : Free fresh w) (hc : (after fresh w).separates c = true) (s : Str) :
    words (w ++ c :: s) = w :: words s := by
  rw [words, splitAux_append h hc]
  cases w with
  | nil => exact absurd rfl hne
  | cons c w => rfl

/-- A string from a position outside of tokens, token by token. -/
inductive View : Str → Prop
  | nil : View []
  | separator {c : Char} {s : Str} (hc : fresh.separates c = true) (hs : View s) : View (c :: s)
  | last {w : Str} (hne : w ≠ []) (hw : Free fresh w) : View w
  | word {w : Str} {c : Char} {s : Str} (hne : w ≠ []) (hw : Free fresh w)
      (hc : (after fresh w).separates c = true) (hs : View s) : View (w ++ c :: s)

theorem free_or_split (f : Flags) (s : Str) :
    Free f s ∨ ∃ w c t, s = w ++ c :: t ∧ Free f w ∧ (after f w).separates c = true := by
  induction s generalizing f with
  | nil => exact Or.inl trivial
  | cons c s ih =>
    cases hc : f.separates c with
    | true => exact Or.inr ⟨[], c, s, rfl, trivial, hc⟩
    | false =>
      rcases ih (f.next c) with h | ⟨w, d, t, rfl, hw, hd⟩
      · exact Or.inl ⟨hc, h⟩
      · exact Or.inr ⟨c :: w, d, t, rfl, ⟨hc, hw⟩, hd⟩

theorem view (s : Str) : View s := by
  induction hn : s.length using Nat.strong_induction_on generalizing s with
  | h n ih =>
    rcases free_or_split fresh s with hs | ⟨w, c, t, rfl, hw, hc⟩
    · cases s with
      | nil => exact .nil
      | cons c s => exact .last (by simp) hs
    · have ht : View t := ih t.length (by simp only [List.length_append, List.length_cons] at hn; omega) t rfl
      cases w with
      | nil => exact .separator hc ht
      | cons d w => exact .word (by simp) hw hc ht

theorem endsBlank_append (hs : s ≠ []) (f : Flags) (w : Str) :
    EndsBlank f (w ++ s) ↔ EndsBlank (after f w) s := by
  induction w generalizing f with
  | nil => rfl
  | cons c w ih =>
    rw [List.cons_append, EndsBlank, if_neg (by simp [hs]), ih]
    rfl

theorem endsBlank_separator (hc : f.separates c = true) (s : Str) :
    EndsBlank f (c :: s) ↔ s = [] ∨ EndsBlank fresh s := by
  obtain ⟨hnext, rfl⟩ := separates_next hc
  rw [EndsBlank, hnext]
  by_cases hs : s = []
  · simp [hs, hc]
  · simp [hs]

theorem not_endsBlank_free (h : Free f w) : ¬EndsBlank f w := by
  induction w generalizing f with
  | nil => exact id
  | cons c w ih =>
    rw [EndsBlank]
    split
    · simp [h.1]
    · exact ih h.2

/-- Without tokens, a string is nothing but separators. -/
theorem endsBlank_of_words (hs : s ≠ []) (h : words s = []) : EndsBlank fresh s := by
  induction view s with
  | nil => exact absurd rfl hs
  | @separator c s hc _ ih =>
    rw [words_separator hc] at h
    rw [endsBlank_separator hc]
    by_cases hs : s = []
    · exact Or.inl hs
    · exact Or.inr (ih hs h)
  | last hne hw => simp [words_last hne hw] at h
  | word hne hw hc _ _ => simp [words_cons hne hw hc] at h

end Words

section Scan

variable {s w t : Str} {f : Flags} {p : Nat} {c last : Char} {pos : Option Nat} {toks : List Str}

/-- The last position of a text where a token is taken to start. -/
def lastStart (f : Flags) (last : Char) : Str → Option Nat
  | [] => none
  | c :: w =>
    match lastStart (f.next c) c w with
    | some d => some (d + 1)
    | none => if starts f last c then some 0 else none

/-- The start of the token behind a text at the position `p`. -/
def startPos (p : Nat) (pos : Option Nat) : Option Nat → Option Nat
  | some d => some (p + d)
  | none => pos

theorem scan_free (h : Free f w) :
    scan s p (w ++ t) ⟨pos, last, f, toks⟩ =
      scan s (p + w.length) t ⟨startPos p pos (lastStart f last w), w.getLastD last, after f w, toks⟩ := by
  induction w generalizing f p last pos with
  | nil => rfl
  | cons c w ih =>
    have hpos : startPos (p + 1) (if starts f last c then some p else pos) (lastStart (f.next c) c w) =
        startPos p pos (lastStart f last (c :: w)) := by
      rw [lastStart]
      cases lastStart (f.next c) c w with
      | some d => simp only [startPos, Nat.add_assoc, Nat.add_comm 1 d]
      | none => cases starts f last c <;> rfl
    rw [List.cons_append, scan, step_inside h.1, Option.bind_some, ih h.2, hpos, List.length_cons,
      Nat.add_assoc, Nat.add_comm 1 w.length, List.getLastD_cons]
    rfl

theorem scan_tokens (s : Str) (p : Nat) (t : Str) (pos : Option Nat) (last : Char) (f : Flags)
    (toks : List Str) :
    scan s p t ⟨pos, last, f, toks⟩ = (scan s p t ⟨pos, last, f, []⟩).map (toks ++ ·) := by
  induction t generalizing p pos last f toks with
  | nil => cases pos <;> simp [scan, endToken]
  | cons c t ih =>
    rw [scan, scan]
    cases hc : f.separates c with
    | false => rw [step_inside hc, step_inside hc, Option.bind_some, Option.bind_some, ih]
    | true =>
      rw [step_separator hc, step_separator hc]
      by_cases hl : last = ' '
      · rw [if_pos hl, if_pos hl, Option.bind_some, Option.bind_some, ih]
      · rw [if_neg hl, if_neg hl]
        cases pos with
        | none => rfl
        | some q =>
          simp only [Option.map_some, Option.bind_some, List.nil_append]
          rw [ih, ih (p + 1) (some q) ' ' f [strncpy s q p], Option.map_map]
          congr 1
          funext out
          simp

/-- The scan from a position outside of tokens. -/
def scanFrom (s : Str) (p : Nat) (t : Str) (pos : Option Nat) : Option (List Str) :=
  scan s p t ⟨pos, ' ', fresh, []⟩

theorem scanFrom_separator (hc : fresh.separates c = true) :
    scanFrom s p (c :: t) pos = scanFrom s (p + 1) t pos := by
  rw [scanFrom, scan, step_separator hc, if_pos rfl]
  rfl

theorem scan_end (s : Str) (p : Nat) (pos : Option Nat) (last : Char) (f : Flags) :
    scan s p [] ⟨pos, last, f, []⟩ = some (pos.toList.map fun q => strncpy s q p) := by
  cases pos <;> rfl

theorem scanFrom_last (hw : Free fresh w) :
    scanFrom s p w pos =
      some ((startPos p pos (lastStart fresh ' ' w)).toList.map fun q => strncpy s q (p + w.length)) := by
  have h : scan s p (w ++ []) ⟨pos, ' ', fresh, []⟩ = _ := scan_free hw
  rw [List.append_nil, scan_end] at h
  exact h

theorem scanFrom_word (hw : Free fresh w) (hc : (after fresh w).separates c = true) :
    scanFrom s p (w ++ c :: t) pos =
      if w.getLastD ' ' = ' ' then
        scanFrom s (p + w.length + 1) t (startPos p pos (lastStart fresh ' ' w))
      else
        (startPos p pos (lastStart fresh ' ' w)).bind fun q =>
          (scanFrom s (p + w.length + 1) t (some q)).map (strncpy s q (p + w.length) :: ·) := by
  have hfresh := (separates_next hc).2
  rw [scanFrom, scan_free hw, scan, step_separator hc, hfresh]
  split
  · rfl
  · cases startPos p pos (lastStart fresh ' ' w) with
    | none => rfl
    | some q =>
      simp only [Option.map_some, Option.bind_some, List.nil_append]
      rw [scan_tokens]
      rfl

end Scan

section Copy

variable {pre w t : Str} {pos p : Nat}

theorem length_strncpy (s : Str) (pos p : Nat) : (strncpy s pos p).length = p - pos := by
  have hlen := (List.takeWhile_sublist (l := (s.drop pos).take (p - pos)) (· != nul)).length_le
  have htake := List.length_take_le (p - pos) (s.drop pos)
  simp only [strncpy, List.length_append, List.length_replicate]
  omega

theorem strncpy_eq (pre w t : Str) :
    strncpy (pre ++ (w ++ t)) pre.length (pre.length + w.length) =
      w.takeWhile (· != nul) ++ List.replicate (w.dropWhile (· != nul)).length nul := by
  have hsplit := congrArg List.length (List.takeWhile_append_dropWhile (p := (· != nul)) (l := w))
  rw [List.length_append] at hsplit
  rw [strncpy, List.drop_left, Nat.add_sub_cancel_left, List.take_left]
  congr 2
  omega

/-- A token is copied as it is where only the end of it is cleared. -/
theorem strncpy_iff (pre w t : Str) :
    strncpy (pre ++ (w ++ t)) pre.length (pre.length + w.length) = w ↔
      ∀ c ∈ w.dropWhile (· != nul), c = nul := by
  rw [strncpy_eq]
  conv => lhs; rhs; rw [← List.takeWhile_append_dropWhile (p := (· != nul)) (l := w)]
  rw [List.append_cancel_left_eq, eq_comm, List.eq_replicate_iff]
  exact ⟨And.right, fun h => ⟨rfl, h⟩⟩

end Copy

section Starts

variable {w a b : Str} {f : Flags} {c last : Char}

theorem starts_iff : starts f last c = true ↔ f = fresh ∧ c ≠ '\\' ∧ last = ' ' := by
  obtain ⟨esc, quote⟩ := f
  simp [starts, fresh, and_assoc]

theorem unbroken_append (f : Flags) (w t : Str) :
    Unbroken f (w ++ t) → Unbroken (after f w) t := by
  induction w generalizing f with
  | nil => exact id
  | cons c w ih => exact fun h => ih (f.next c) h.2

/-- Behind an escaped blank outside of quotes the scanner is outside of quotes with a blank behind it. -/
theorem next_blank (hc : f.separates ' ' = false) :
    f.next ' ' = fresh ↔ f.esc = true ∧ f.quote = false := by
  obtain ⟨esc, quote⟩ := f
  cases esc <;> cases quote <;> simp_all [Flags.separates, Flags.next, fresh]

/-- No other start is taken in a text where escaped blanks are followed by backslashes. -/
theorem lastStart_tail (hw : Free f (c :: w)) :
    lastStart (f.next c) c w = none ↔ Unbroken f (c :: w) := by
  induction w generalizing f c with
  | nil => simp [lastStart, Unbroken]
  | cons d w ih =>
    have ih := ih hw.2
    have hstart : starts (f.next c) c d = false ↔
        (f.esc = true → f.quote = false → c = ' ' → ∀ x ∈ (d :: w).head?, x = '\\') := by
      rw [← Bool.not_eq_true, starts_iff]
      by_cases hc : c = ' '
      · subst hc
        rw [next_blank hw.1]
        simp only [List.head?_cons, Option.mem_some_iff]
        constructor
        · intro h he hq _ x hx
          subst hx
          by_contra hd
          exact h ⟨⟨he, hq⟩, hd, trivial⟩
        · rintro h ⟨⟨he, hq⟩, hd, -⟩
          exact hd (h he hq trivial d rfl)
      · simp [hc]
    rw [Unbroken, ← ih, lastStart]
    cases hl : lastStart ((f.next c).next d) d w with
    | some j => simp
    | none => simpa using hstart

/-- A token is taken from its first character if it is no backslash and the token is unbroken. -/
theorem lastStart_token (hne : w ≠ []) (hw : Free fresh w) :
    lastStart fresh ' ' w = some 0 ↔ w.head? ≠ some '\\' ∧ Unbroken fresh w := by
  cases w with
  | nil => exact absurd rfl hne
  | cons c w =>
    rw [lastStart, ← lastStart_tail hw]
    cases hl : lastStart (fresh.next c) c w with
    | some j => simp
    | none => simp [starts, fresh]

theorem lastStart_at (h : starts (after f a) (a.getLastD last) c = true) :
    ∃ j, lastStart f last (a ++ c :: b) = some j ∧ a.length ≤ j := by
  induction a generalizing f last with
  | nil =>
    have h : starts f last c = true := h
    rw [List.nil_append, lastStart, if_pos h]
    cases lastStart (f.next c) c b with
    | some d => exact ⟨d + 1, rfl, Nat.zero_le _⟩
    | none => exact ⟨0, rfl, Nat.zero_le _⟩
  | cons x a ih =>
    have hnext : starts (after (f.next x) a) (a.getLastD x) c = true := by
      rw [← List.getLastD_cons]
      exact h
    obtain ⟨j, hj, hle⟩ := ih hnext
    refine ⟨j + 1, ?_, Nat.succ_le_succ hle⟩
    rw [List.cons_append, lastStart, hj]

theorem lastStart_split {d : Nat} (h : lastStart f last w = some d) :
    ∃ a c b, w = a ++ c :: b ∧ a.length = d ∧ starts (after f a) (a.getLastD last) c = true ∧
      lastStart (after f a) (a.getLastD last) (c :: b) = some 0 := by
  induction w generalizing f last d with
  | nil => cases h
  | cons x w ih =>
    have hx := h
    rw [lastStart] at h
    cases hl : lastStart (f.next x) x w with
    | some j =>
      rw [hl] at h
      obtain rfl := Option.some.inj h
      obtain ⟨a, c, b, rfl, hlen, hstart, hlast⟩ := ih hl
      refine ⟨x :: a, c, b, rfl, by rw [List.length_cons, hlen], ?_, ?_⟩
      · rw [List.getLastD_cons]
        exact hstart
      · rw [List.getLastD_cons]
        exact hlast
    | none =>
      rw [hl] at h
      by_cases hs : starts f last x = true
      · rw [if_pos hs] at h
        obtain rfl := Option.some.inj h
        exact ⟨[], x, w, rfl, rfl, hs, hx⟩
      · rw [if_neg hs] at h
        cases h

end Starts

section Result

variable {pre s t w a : Str} {f : Flags} {c last : Char} {pos : Option Nat} {p q : Nat} {out : List Str}

theorem free_left (h : Free f (w ++ t)) : Free f w := by
  induction w generalizing f with
  | nil => trivial
  | cons c w ih => exact ⟨h.1, ih h.2⟩

theorem free_right (h : Free f (w ++ t)) : Free (after f w) t := by
  induction w generalizing f with
  | nil => exact h
  | cons c w ih => exact ih h.2

theorem free_concat (h : Free f w) (hc : (after f w).separates c = false) : Free f (w ++ [c]) := by
  induction w generalizing f with
  | nil => exact ⟨hc, trivial⟩
  | cons d w ih => exact ⟨h.1, ih h.2 hc⟩

theorem after_append (f : Flags) (w t : Str) : after f (w ++ t) = after (after f w) t := List.foldl_append

theorem unbroken_left (h : Unbroken f (w ++ t)) : Unbroken f w := by
  induction w generalizing f with
  | nil => trivial
  | cons c w ih =>
    refine ⟨fun he hq hc d hd => h.1 he hq hc d ?_, ih h.2⟩
    cases w with
    | nil => cases hd
    | cons x w => exact hd

theorem unbroken_join (h : Unbroken f w) (hlast : w.getLastD last ≠ ' ') (ht : Unbroken (after f w) t) :
    Unbroken f (w ++ t) := by
  induction w generalizing f last with
  | nil => exact ht
  | cons c w ih =>
    rw [List.getLastD_cons] at hlast
    cases w with
    | nil => exact ⟨fun _ _ hc => absurd hc hlast, ht⟩
    | cons x w => exact ⟨h.1, ih h.2 hlast ht⟩

theorem blank_of_separates (h : f.separates c = true) : c = ' ' ∨ c = '\t' := by
  simp only [Flags.separates, Bool.and_eq_true, Bool.or_eq_true, beq_iff_eq] at h
  exact h.2

/-- In an unbroken string no token that a separator ends has an escaped blank at its end. -/
theorem last_of_unbroken (hne : w ≠ []) (hw : Free fresh w) (hc : (after fresh w).separates c = true)
    (h : Unbroken fresh (w ++ c :: t)) : w.getLastD ' ' ≠ ' ' := by
  obtain ⟨a, x, rfl⟩ := (List.eq_nil_or_concat w).resolve_left hne
  rw [List.concat_eq_append] at hw hc h ⊢
  intro hx
  have hx : x = ' ' := by simpa using hx
  subst hx
  have hnext : (after fresh a).next ' ' = fresh := by
    have := (separates_next hc).2
    rw [after_append] at this
    exact this
  obtain ⟨he, hq⟩ := (next_blank (free_right hw).1).mp hnext
  rw [List.append_assoc] at h
  have hslash := (unbroken_append fresh a _ h).1 he hq rfl c rfl
  rcases blank_of_separates hc with rfl | rfl <;> cases hslash

theorem lastStart_lt {d : Nat} (h : lastStart f last w = some d) : d < w.length := by
  obtain ⟨a, c, b, rfl, rfl, -⟩ := lastStart_split h
  simp

theorem startPos_lt (hpos : ∀ x ∈ pos, x < p) :
    ∀ x ∈ startPos p pos (lastStart f last w), x < p + w.length + 1 := by
  intro x hx
  cases hl : lastStart f last w with
  | none =>
    rw [hl] at hx
    have := hpos x hx
    omega
  | some d =>
    rw [hl] at hx
    have := lastStart_lt hl
    obtain rfl := Option.some.inj hx
    omega

theorem startPos_iff (hpos : ∀ x ∈ pos, x < p) {d : Option Nat} : startPos p pos d = some p ↔ d = some 0 := by
  cases d with
  | none =>
    refine ⟨fun h => ?_, fun h => by cases h⟩
    exact absurd (hpos p h) (Nat.lt_irrefl p)
  | some d => simp [startPos]

/-- A copy that is as long as the token in front of its end begins where the token begins. -/
theorem start_of_copy (hcopy : strncpy s q (p + w.length) = w) (hne : w ≠ []) : q = p := by
  have hlen := congrArg List.length hcopy
  have hpos := List.length_pos_of_ne_nil hne
  rw [length_strncpy] at hlen
  omega

theorem scan_good (hs : words s ≠ []) (hend : ¬EndsBlank fresh s) (hunbroken : Unbroken fresh s)
    (hcopied : ∀ w ∈ words s, Copied w) (pre : Str) (hpos : ∀ x ∈ pos, x < pre.length) :
    scanFrom (pre ++ s) pre.length s pos = some (words s) := by
  induction view s generalizing pre pos with
  | nil => exact absurd rfl hs
  | @separator c s hc _ ih =>
    rw [words_separator hc] at hs hcopied ⊢
    rw [endsBlank_separator hc, not_or] at hend
    have htext : pre ++ c :: s = (pre ++ [c]) ++ s := by simp
    have hlen : pre.length + 1 = (pre ++ [c]).length := by simp
    have htail : Unbroken fresh s := by
      have := hunbroken.2
      rwa [(separates_next hc).1] at this
    rw [scanFrom_separator hc, htext, hlen]
    refine ih hs hend.2 htail hcopied (pre ++ [c]) fun x hx => ?_
    have := hpos x hx
    omega
  | @last w hne hw =>
    rw [words_last hne hw] at hcopied ⊢
    obtain ⟨hhead, hnul⟩ := hcopied w List.mem_cons_self
    have hstart := (startPos_iff hpos).mpr ((lastStart_token hne hw).mpr ⟨hhead, hunbroken⟩)
    have hcopy := (strncpy_iff pre w []).mpr hnul
    rw [List.append_nil] at hcopy
    rw [scanFrom_last hw, hstart]
    simp [hcopy]
  | @word w c s hne hw hc _ ih =>
    rw [words_cons hne hw hc] at hcopied ⊢
    rw [endsBlank_append (by simp), endsBlank_separator hc, not_or] at hend
    have hwords : words s ≠ [] := fun h => hend.2 (endsBlank_of_words hend.1 h)
    have htail : Unbroken fresh s := by
      have := (unbroken_append fresh w _ hunbroken).2
      rwa [(separates_next hc).1, (separates_next hc).2] at this
    obtain ⟨hhead, hnul⟩ := hcopied w List.mem_cons_self
    have hstart := (startPos_iff hpos).mpr ((lastStart_token hne hw).mpr ⟨hhead, unbroken_left hunbroken⟩)
    have hcopy := (strncpy_iff pre w (c :: s)).mpr hnul
    have htext : pre ++ (w ++ c :: s) = (pre ++ w ++ [c]) ++ s := by simp
    have hlen : pre.length + w.length + 1 = (pre ++ w ++ [c]).length := by
      simp only [List.length_append, List.length_singleton]
    rw [scanFrom_word hw hc, if_neg (last_of_unbroken hne hw hc hunbroken), hstart, Option.bind_some, hcopy,
      htext, hlen, ih hwords hend.2 htail (fun x hx => hcopied x (List.mem_cons_of_mem w hx))
      (pre ++ w ++ [c])
      (fun x hx => by obtain rfl := Option.some.inj hx; omega)]
    rfl

theorem startPos_some (p q : Nat) (d : Option Nat) : ∃ r, startPos p (some q) d = some r := by
  cases d with
  | none => exact ⟨q, rfl⟩
  | some d => exact ⟨p + d, rfl⟩

/-- With a start known, the end of the string gives one more token. -/
theorem scanFrom_ne_nil (h : scanFrom s p t (some q) = some out) : out ≠ [] := by
  induction view t generalizing p q out with
  | nil =>
    rw [scanFrom, scan_end] at h
    obtain rfl := Option.some.inj h
    simp
  | separator hc _ ih =>
    rw [scanFrom_separator hc] at h
    exact ih h
  | last _ hw =>
    obtain ⟨r, hr⟩ := startPos_some p q (lastStart fresh ' ' _)
    rw [scanFrom_last hw, hr] at h
    obtain rfl := Option.some.inj h
    simp
  | word _ hw hc _ ih =>
    obtain ⟨r, hr⟩ := startPos_some p q (lastStart fresh ' ' _)
    rw [scanFrom_word hw hc, hr] at h
    split at h
    · exact ih h
    · obtain ⟨rest, -, rfl⟩ := Option.map_eq_some_iff.mp h
      simp

theorem length_scanFrom (hs : s ≠ []) (hend : ¬EndsBlank fresh s) (h : scanFrom t p s pos = some out) :
    out.length ≤ (words s).length := by
  induction view s generalizing p pos out with
  | nil => exact absurd rfl hs
  | separator hc _ ih =>
    rw [endsBlank_separator hc, not_or] at hend
    rw [scanFrom_separator hc] at h
    rw [words_separator hc]
    exact ih hend.1 hend.2 h
  | last hne hw =>
    rw [scanFrom_last hw] at h
    obtain rfl := Option.some.inj h
    rw [words_last hne hw, List.length_map, List.length_singleton]
    cases startPos p pos (lastStart fresh ' ' _) <;> simp
  | word hne hw hc _ ih =>
    rw [endsBlank_append (by simp), endsBlank_separator hc, not_or] at hend
    rw [scanFrom_word hw hc] at h
    rw [words_cons hne hw hc, List.length_cons]
    split at h
    · exact Nat.le_succ_of_le (ih hend.1 hend.2 h)
    · obtain ⟨q, -, h⟩ := Option.bind_eq_some_iff.mp h
      obtain ⟨rest, hrest, rfl⟩ := Option.map_eq_some_iff.mp h
      exact Nat.succ_le_succ (ih hend.1 hend.2 hrest)

theorem scanFrom_blank (hs : words s = []) :
    scanFrom t p s pos = some (pos.toList.map fun q => strncpy t q (p + s.length)) := by
  induction view s generalizing p with
  | nil => exact scan_end t p pos ' ' fresh
  | separator hc _ ih =>
    rw [words_separator hc] at hs
    rw [scanFrom_separator hc, ih hs, List.length_cons, Nat.add_assoc, Nat.add_comm 1]
  | last hne hw => simp [words_last hne hw] at hs
  | word hne hw hc _ _ => simp [words_cons hne hw hc] at hs

/-- What is behind a text at the beginning of a copy, in what it is copied from: the same, or a NUL. -/
theorem behind_copy {v y a b : Str} {x : Char} (hcopy : v ++ List.replicate y.length nul = a ++ x :: b)
    (hlast : a.getLastD ' ' = ' ') (hy : ∀ h ∈ y.head?, h = nul) :
    ∃ h, a ++ [h] <+: v ++ y ∧ (h = x ∨ h = nul) := by
  have hcut : ∃ v', v = a ++ v' ∧ x :: b = v' ++ List.replicate y.length nul := by
    rcases List.append_eq_append_iff.mp hcopy with ⟨a', ha', hrest⟩ | h
    · rcases List.eq_nil_or_concat a' with rfl | ⟨u, z, rfl⟩
      · exact ⟨[], by rw [ha']; simp, by simpa using hrest.symm⟩
      · -- the blank at the end of `a` is no cleared character
        rw [List.concat_eq_append] at ha' hrest
        have hmem : z ∈ List.replicate y.length nul := by
          rw [hrest]
          simp
        rw [ha', ← List.append_assoc, List.getLastD_concat, List.eq_of_mem_replicate hmem] at hlast
        cases hlast
    · exact h
  obtain ⟨v', rfl, hrest⟩ := hcut
  cases v' with
  | nil =>
    cases y with
    | nil => cases hrest
    | cons h y => exact ⟨h, ⟨y, by simp⟩, Or.inr (hy h rfl)⟩
  | cons h v' => exact ⟨h, ⟨v' ++ y, by simp⟩, Or.inl (List.cons.inj hrest).1.symm⟩

/-- The text from the start of the last token to the end of a string with a separator at its end is
no copy of that token: read from there, it meets the separator, and the token has none. -/
theorem last_copy_ne (hne : w ≠ []) (hw : Free fresh w) (hc : (after fresh w).separates c = true)
    (hpos : ∀ x ∈ pos, x < pre.length) (hq : startPos pre.length pos (lastStart fresh ' ' w) = some q) :
    strncpy (pre ++ (w ++ c :: s)) q (pre ++ (w ++ c :: s)).length ≠ w := by
  intro hcopy
  have hlen := congrArg List.length hcopy
  have hwpos := List.length_pos_of_ne_nil hne
  rw [length_strncpy] at hlen
  simp only [List.length_append, List.length_cons] at hlen
  cases hl : lastStart fresh ' ' w with
  | none =>
    rw [hl] at hq
    have := hpos q hq
    omega
  | some d =>
    rw [hl] at hq
    obtain rfl := Option.some.inj hq
    obtain ⟨a, x, b, rfl, rfl, hstart, hlast⟩ := lastStart_split hl
    obtain ⟨hfresh, hx, hblank⟩ := starts_iff.mp hstart
    rw [hfresh, hblank] at hlast
    have hxfree : fresh.separates x = false := by
      have := (free_right hw).1
      rwa [hfresh] at this
    -- within the token, what is behind its start is followed by the separator
    have hsep : ∀ y, Free fresh y → ¬(x :: b ++ [c]) <+: y := by
      rintro y hy ⟨z, rfl⟩
      rw [List.append_assoc] at hy
      have hfree := (free_right hy).1
      rw [after_append, hfresh] at hc
      rw [hc] at hfree
      cases hfree
    have ha : a ≠ [] := by
      rintro rfl
      simp only [List.length_nil, List.nil_append, List.length_cons] at hlen
      omega
    have htext : pre ++ (a ++ x :: b ++ c :: s) = (pre ++ a) ++ ((x :: b ++ c :: s) ++ []) := by simp
    have hends : (pre ++ (a ++ x :: b ++ c :: s)).length = (pre ++ a).length + (x :: b ++ c :: s).length := by
      rw [htext, List.append_nil, List.length_append]
    have hfrom : pre.length + a.length = (pre ++ a).length := by rw [List.length_append]
    rw [hends, hfrom, htext, strncpy_eq] at hcopy
    -- the character behind a copy of the text in front of the start
    have hnul : ∀ y ∈ ((x :: b ++ c :: s).dropWhile (· != nul)).head?, y = nul := by
      intro y hy
      have := List.head?_dropWhile_not (· != nul) (x :: b ++ c :: s)
      rw [hy] at this
      simpa using this
    obtain ⟨h, hpre, hh⟩ := behind_copy hcopy hblank hnul
    rw [List.takeWhile_append_dropWhile] at hpre
    have hsafe : fresh.separates h = false ∧ h ≠ '\\' := by
      rcases hh with rfl | rfl
      · exact ⟨hxfree, hx⟩
      · decide
    have hfree : Free fresh (a ++ [h]) := free_concat (free_left hw) (by rw [hfresh]; exact hsafe.1)
    have hpre' : (x :: b ++ [c]) <+: x :: b ++ c :: s := ⟨s, by simp⟩
    rcases List.prefix_or_prefix_of_prefix hpre hpre' with hle | hle
    · rcases List.prefix_concat_iff.mp hle with heq | hle
      · exact hsep _ hfree (heq ▸ List.prefix_rfl)
      · obtain ⟨z, hz⟩ := hle
        have hstart' : starts (after fresh a) (a.getLastD ' ') h = true :=
          starts_iff.mpr ⟨hfresh, hsafe.2, hblank⟩
        obtain ⟨j, hj, hle⟩ := lastStart_at (b := z) hstart'
        have hapos := List.length_pos_of_ne_nil ha
        rw [← List.singleton_append, ← List.append_assoc, hz, hlast] at hj
        obtain rfl := Option.some.inj hj
        omega
    · exact hsep _ hfree hle

/-- The position behind a token and its separator. -/
theorem text_word (pre w : Str) (c : Char) (s : Str) :
    pre ++ (w ++ c :: s) = (pre ++ w ++ [c]) ++ s ∧ pre.length + w.length + 1 = (pre ++ w ++ [c]).length :=
  ⟨by simp, by simp only [List.length_append, List.length_singleton]⟩

/-- With a separator at the end the last token is given once more, in another form. -/
theorem getLast_scanFrom (hs : words s ≠ []) (hend : EndsBlank fresh s) (hpos : ∀ x ∈ pos, x < pre.length)
    (h : scanFrom (pre ++ s) pre.length s pos = some out) : out.getLast? ≠ (words s).getLast? := by
  induction view s generalizing pre pos out with
  | nil => exact absurd rfl hs
  | @separator c s hc _ ih =>
    rw [words_separator hc] at hs ⊢
    have hne : s ≠ [] := by
      rintro rfl
      exact hs rfl
    have htext : pre ++ c :: s = (pre ++ [c]) ++ s := by simp
    have hlen : pre.length + 1 = (pre ++ [c]).length := by simp
    rw [scanFrom_separator hc, htext, hlen] at h
    refine ih hs (((endsBlank_separator hc s).mp hend).resolve_left hne) (fun x hx => ?_) h
    have := hpos x hx
    omega
  | last _ hw => exact absurd hend (not_endsBlank_free hw)
  | @word w c s hne hw hc _ ih =>
    obtain ⟨htext, hlen⟩ := text_word pre w c s
    rw [words_cons hne hw hc]
    by_cases hwords : words s = []
    · -- the copy that the end of the string adds
      have hcopy : ∀ q ∈ startPos pre.length pos (lastStart fresh ' ' w),
          strncpy (pre ++ (w ++ c :: s)) q (pre.length + w.length + 1 + s.length) ≠ w := by
        intro q hq
        have hall : pre.length + w.length + 1 + s.length = (pre ++ (w ++ c :: s)).length := by
          simp only [List.length_append, List.length_cons]
          omega
        rw [hall]
        exact last_copy_ne hne hw hc hpos hq
      rw [hwords]
      rw [scanFrom_word hw hc] at h
      split at h
      · rw [scanFrom_blank hwords] at h
        obtain rfl := Option.some.inj h
        cases hq : startPos pre.length pos (lastStart fresh ' ' w) with
        | none => simp
        | some q => simpa using hcopy q hq
      · obtain ⟨q, hq, h⟩ := Option.bind_eq_some_iff.mp h
        rw [scanFrom_blank hwords] at h
        obtain rfl := Option.some.inj h
        simpa using hcopy q hq
    · have hne' : s ≠ [] := by
        rintro rfl
        exact hwords rfl
      rw [endsBlank_append (by simp), endsBlank_separator hc] at hend
      have hlast : (w :: words s).getLast? = (words s).getLast? := List.getLast?_cons_of_ne_nil hwords
      have hbound : ∀ x ∈ startPos pre.length pos (lastStart fresh ' ' w), x < pre.length + w.length + 1 :=
        startPos_lt hpos
      rw [hlen] at hbound
      rw [scanFrom_word hw hc, htext, hlen] at h
      rw [hlast]
      split at h
      · exact ih hwords (hend.resolve_left hne') hbound h
      · obtain ⟨q, hq, h⟩ := Option.bind_eq_some_iff.mp h
        obtain ⟨rest, hrest, rfl⟩ := Option.map_eq_some_iff.mp h
        rw [List.getLast?_cons_of_ne_nil (scanFrom_ne_nil hrest)]
        exact ih hwords (hend.resolve_left hne') (hq ▸ hbound) hrest

theorem good_of_scan (hs : words s ≠ []) (hend : ¬EndsBlank fresh s) (hpos : ∀ x ∈ pos, x < pre.length)
    (h : scanFrom (pre ++ s) pre.length s pos = some (words s)) :
    Unbroken fresh s ∧ ∀ w ∈ words s, Copied w := by
  induction view s generalizing pre pos with
  | nil => exact absurd rfl hs
  | @separator c s hc _ ih =>
    rw [words_separator hc] at hs h ⊢
    rw [endsBlank_separator hc, not_or] at hend
    have htext : pre ++ c :: s = (pre ++ [c]) ++ s := by simp
    have hlen : pre.length + 1 = (pre ++ [c]).length := by simp
    rw [scanFrom_separator hc, htext, hlen] at h
    obtain ⟨hunbroken, hcopied⟩ := ih hs hend.2 (fun x hx => by have := hpos x hx; omega) h
    refine ⟨⟨fun he => (by cases he), ?_⟩, hcopied⟩
    rw [(separates_next hc).1]
    exact hunbroken
  | @last w hne hw =>
    rw [scanFrom_last hw, words_last hne hw] at h
    rw [words_last hne hw]
    cases hq : startPos pre.length pos (lastStart fresh ' ' w) with
    | none => simp [hq] at h
    | some q =>
      have hcopy : strncpy (pre ++ w) q (pre.length + w.length) = w := by simpa [hq] using h
      obtain rfl := start_of_copy hcopy hne
      have hnul := (strncpy_iff pre w []).mp (by rw [List.append_nil]; exact hcopy)
      obtain ⟨hhead, hunbroken⟩ := (lastStart_token hne hw).mp ((startPos_iff hpos).mp hq)
      exact ⟨hunbroken, fun v hv => List.mem_singleton.mp hv ▸ ⟨hhead, hnul⟩⟩
  | @word w c s hne hw hc _ ih =>
    obtain ⟨htext, hlen⟩ := text_word pre w c s
    rw [endsBlank_append (by simp), endsBlank_separator hc, not_or] at hend
    have hwords : words s ≠ [] := fun h => hend.2 (endsBlank_of_words hend.1 h)
    rw [scanFrom_word hw hc, words_cons hne hw hc] at h
    rw [words_cons hne hw hc]
    split at h
    · -- a token that is not given is missing
      have := length_scanFrom hend.1 hend.2 h
      rw [List.length_cons] at this
      omega
    next hlast =>
      obtain ⟨q, hq, h⟩ := Option.bind_eq_some_iff.mp h
      obtain ⟨rest, hrest, heq⟩ := Option.map_eq_some_iff.mp h
      obtain ⟨hcopy, rfl⟩ := List.cons.inj heq
      obtain rfl := start_of_copy hcopy hne
      have hnul := (strncpy_iff pre w (c :: s)).mp hcopy
      obtain ⟨hhead, hunbroken⟩ := (lastStart_token hne hw).mp ((startPos_iff hpos).mp hq)
      have hbound : ∀ x ∈ startPos pre.length pos (lastStart fresh ' ' w), x < pre.length + w.length + 1 :=
        startPos_lt hpos
      rw [hq, hlen] at hbound
      rw [htext, hlen] at hrest
      obtain ⟨htail, hcopied⟩ := ih hwords hend.2 hbound hrest
      refine ⟨unbroken_join hunbroken hlast ?_, fun v hv => ?_⟩
      · obtain ⟨hnext, hfresh⟩ := separates_next hc
        rw [hfresh] at hnext ⊢
        exact ⟨fun he => (by cases he), by rw [hnext]; exact htail⟩
      · rcases List.mem_cons.mp hv with rfl | hv
        · exact ⟨hhead, hnul⟩
        · exact hcopied v hv

end Result

/-- The tokens are right, and every index lies within the string, exactly for strings without
tokens and for those that end with a token, in which no token begins with a backslash, no
escaped blank is followed by more of its token and nothing is behind a NUL. -/
theorem tokenize_iff (s : Str) :
    tokenize s = some (words s) ↔
      words s = [] ∨ (¬EndsBlank fresh s ∧ Unbroken fresh s ∧ ∀ w ∈ words s, Copied w) := by
  have hstart : tokenize s = scanFrom ([] ++ s) ([] : Str).length s none := rfl
  rw [hstart]
  by_cases hs : words s = []
  · simp only [hs, true_or, iff_true]
    exact scanFrom_blank hs
  · rw [or_iff_right hs]
    constructor
    · intro h
      have hend : ¬EndsBlank fresh s := fun hend =>
        getLast_scanFrom hs hend (by simp) h rfl
      exact ⟨hend, good_of_scan hs hend (by simp) h⟩
    · rintro ⟨hend, hunbroken, hcopied⟩
      exact scan_good hs hend hunbroken hcopied [] (by simp)

/-- A blank at the end repeats the last token. -/
theorem tokenize_blank : tokenize "show ".toList ≠ some (words "show ".toList) := by
  decide +kernel

end T2SDE.SamTokenize
