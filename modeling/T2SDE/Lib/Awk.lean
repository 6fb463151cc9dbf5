import T2SDE.Lib.Text

namespace Awk

open Text

def blank (c : Char) : Bool := c == ' ' || c == '\t' || c == '\n'

def split (s : Str) : List Str := tokens blank s

/-- `a[i]` after `split`; awk counts from one and reads a missing element as "". -/
def field (a : List Str) (i : Nat) : Str := a.getD (i - 1) []

/-- `index(s, t)` used as a condition, for a non-empty `t`. -/
def index (s t : Str) : Bool := decide (t <:+: s)

/-- The replacement text of `sub` and `gsub`: `&` is the matched text, `\&` is a literal
`&`, and backslashes in front of either form pair up. -/
def replacement (matched : Str) : Str → Str
  | '\\' :: '\\' :: '\\' :: '&' :: r => '\\' :: '&' :: replacement matched r
  | '\\' :: '\\' :: '&' :: r => '\\' :: (matched ++ replacement matched r)
  | '\\' :: '&' :: r => '&' :: replacement matched r
  | '&' :: r => matched ++ replacement matched r
  | c :: r => c :: replacement matched r
  | [] => []

theorem replacement_plain {matched r : Str} (h : '&' ∉ r) : replacement matched r = r := by
  induction r using replacement.induct with
  | case1 | case2 | case3 | case4 => simp at h
  | case5 c r h1 h2 h3 h4 ih =>
    rw [replacement.eq_5 _ _ _ h1 h2 h3 h4, ih (fun hr => h (by simp [hr]))]
  | case6 => rfl

/-- `gsub` of a text without regular expression operators; the counter is the number of
characters that still belong to the match just replaced. -/
def gsubAux (pat repl : Str) : Nat → Str → Str
  | _, [] => []
  | skip + 1, _ :: s => gsubAux pat repl skip s
  | 0, c :: s =>
    if pat <+: c :: s then replacement pat repl ++ gsubAux pat repl (pat.length - 1) s
    else c :: gsubAux pat repl 0 s

def gsub (pat repl s : Str) : Str := gsubAux pat repl 0 s

/-- `sub` of a text anchored at the beginning. -/
def subStart (pat repl s : Str) : Str :=
  if pat <+: s then replacement pat repl ++ s.drop pat.length else s

/-- `sub` of a text anchored at the end. -/
def subEnd (pat repl s : Str) : Str :=
  if pat <:+ s then s.take (s.length - pat.length) ++ replacement pat repl else s

theorem gsub_copy {h : Char} {pat repl a : Str} (s : Str) (ha : h ∉ a) :
    gsub (h :: pat) repl (a ++ s) = a ++ gsub (h :: pat) repl s := by
  induction a with
  | nil => rfl
  | cons c a ih =>
    have hc : h ≠ c := fun e => ha (by simp [e])
    have ih := ih (fun hm => ha (by simp [hm]))
    simp only [gsub] at ih ⊢
    simp [gsubAux, hc, ih]

theorem gsubAux_skip (pat repl a s : Str) :
    gsubAux pat repl a.length (a ++ s) = gsubAux pat repl 0 s := by
  induction a with
  | nil => rfl
  | cons c a ih => simpa [gsubAux] using ih

theorem gsub_here {h : Char} {pat repl : Str} (s : Str) :
    gsub (h :: pat) repl (h :: pat ++ s) = replacement (h :: pat) repl ++ gsub (h :: pat) repl s := by
  have hp : h :: pat <+: h :: (pat ++ s) := ⟨s, by simp⟩
  simp only [gsub, List.cons_append, gsubAux, hp, if_true]
  simpa using gsubAux_skip (h :: pat) repl pat s

/-- The pieces between the runs of separators; at the start and at the end they may be empty. -/
def pieces (sep : Char → Bool) : Bool → Str → List Str
  | _, [] => [[]]
  | inside, c :: s =>
    if sep c then if inside then pieces sep true s else [] :: pieces sep true s
    else
      match pieces sep false s with
      | [] => [[c]]
      | w :: ws => (c :: w) :: ws

/-- `split` with a regular expression for a run of separators. -/
def splitRuns (sep : Char → Bool) (s : Str) : List Str := if s = [] then [] else pieces sep false s

def space (c : Char) : Bool :=
  c == ' ' || c == '\t' || c == '\n' || c == '\r' || c == Char.ofNat 11 || c == Char.ofNat 12

def dropSign (s : Str) : Str := if s.head? = some '+' ∨ s.head? = some '-' then s.drop 1 else s

/-- Input that looks like a number whose value is zero. -/
def numericZero (s : Str) : Bool :=
  let body := dropSign ((s.dropWhile space).reverse.dropWhile space).reverse
  let mantissa := body.takeWhile fun c => c.isDigit || c == '.'
  let rest := body.dropWhile fun c => c.isDigit || c == '.'
  let exponent := dropSign (rest.drop 1)
  mantissa.all (fun c => c == '0' || c == '.') && mantissa.contains '0' && decide (mantissa.count '.' ≤ 1) &&
    (rest == [] || (rest.head? == some 'e' || rest.head? == some 'E') && exponent != [] &&
      exponent.all Char.isDigit)

/-- Input as a condition. -/
def truth (s : Str) : Bool := s != [] && !numericZero s

end Awk
