import Mathlib.Algebra.Ring.Nat
import Mathlib.Tactic.IntervalCases
import Mathlib.Tactic.SplitIfs
import T2SDE.Lib.CString

namespace AnsiQuote

open Text CString

/-- The value of a character that lies between two others. -/
def digitIn (low high : Char) (offset : Nat) (c : Char) : Option Nat :=
  if low.toNat ≤ c.toNat ∧ c.toNat ≤ high.toNat then some (c.toNat - low.toNat + offset) else none

def octDigit (c : Char) : Option Nat := digitIn '0' '7' 0 c

def hexDigit (c : Char) : Option Nat :=
  digitIn '0' '9' 0 c <|> digitIn 'a' 'f' 10 c <|> digitIn 'A' 'F' 10 c

/-- The number that at most so many digits add to a value, and the text behind them. -/
def number (digit : Char → Option Nat) (base : Nat) : Nat → Nat → Str → Nat × Str
  | 0, v, s => (v, s)
  | _ + 1, v, [] => (v, [])
  | n + 1, v, c :: s =>
    match digit c with
    | some d => number digit base n (v * base + d) s
    | none => (v, c :: s)

def byte (n : Nat) : Char := Char.ofNat (n % 256)

/-- The bytes of a code point, as the shell writes them in a UTF-8 locale. -/
def utf8 (v : Nat) : Str :=
  let tail (i : Nat) : Char := byte (0x80 + v / 64 ^ i % 64)
  if v < 0x80 then [byte v]
  else if v < 0x800 then [byte (0xc0 + v / 64), tail 0]
  else if v < 0x10000 then [byte (0xe0 + v / 64 ^ 2), tail 1, tail 0]
  else if v < 0x200000 then [byte (0xf0 + v / 64 ^ 3), tail 2, tail 1, tail 0]
  else if v < 0x4000000 then [byte (0xf8 + v / 64 ^ 4), tail 3, tail 2, tail 1, tail 0]
  else if v < 0x80000000 then [byte (0xfc + v / 64 ^ 5), tail 4, tail 3, tail 2, tail 1, tail 0]
  else []

/-- The characters that a backslash and one letter stand for. -/
def simpleEscapes : List (Char × Char) := [
  ('a', '\x07'), ('b', '\x08'), ('e', '\x1b'), ('E', '\x1b'), ('f', '\x0c'), ('n', '\n'),
  ('r', '\r'), ('t', '\t'), ('v', '\x0b'), ('\\', '\\'), ('\'', '\''), ('"', '"'), ('?', '?')]

def control (c : Char) : Char := if c = '?' then '\x7f' else Char.ofNat (c.toUpper.toNat % 32)

def escapeOctal (s : Str) : Str × Str :=
  ([byte (number octDigit 8 3 0 s).1], (number octDigit 8 3 0 s).2)

def closeBrace : Str → Str
  | '}' :: s => s
  | s => s

/-- The text behind `\x`: two digits, any digits in braces, or no escape. -/
def escapeHex : Str → Str × Str
  | '{' :: s => ([byte (number hexDigit 16 s.length 0 s).1], closeBrace (number hexDigit 16 s.length 0 s).2)
  | s =>
    if (s.head?.bind hexDigit).isSome then
      ([byte (number hexDigit 16 2 0 s).1], (number hexDigit 16 2 0 s).2)
    else (['\\', 'x'], s)

/-- The text behind `\u` or `\U` -/
def escapeCode (c : Char) (n : Nat) (s : Str) : Str × Str :=
  if (s.head?.bind hexDigit).isSome then (utf8 (number hexDigit 16 n 0 s).1, (number hexDigit 16 n 0 s).2)
  else (['\\', c], s)

/-- The text behind `\c` -/
def escapeControl : Str → Str × Str
  | [] => (['\\', 'c'], [])
  | '\\' :: '\\' :: s => ([control '\\'], s)
  | d :: s => ([control d], s)

/-- What a backslash with the text behind it stands for, and the text that is left. -/
def escape : Str → Str × Str
  | [] => (['\\'], [])
  | c :: s =>
    if (simpleEscapes.lookup c).isSome then ([(simpleEscapes.lookup c).getD c], s)
    else if (octDigit c).isSome then escapeOctal (c :: s)
    else if c = 'x' then escapeHex s
    else if c = 'u' then escapeCode c 4 s
    else if c = 'U' then escapeCode c 8 s
    else if c = 'c' then escapeControl s
    else (['\\', c], s)

/-- The text between the quotes of `$'…'`, decoded with fuel for its length. -/
def decode : Nat → Str → Str
  | 0, _ => []
  | _ + 1, [] => []
  | fuel + 1, c :: s =>
    if c = '\\' then (escape s).1 ++ decode fuel (escape s).2
    else c :: decode fuel s

/-- The word that a quoted text stands for; a null character ends it. -/
def value (body : Str) : Str := (decode body.length body).takeWhile (· != nul)

/-- The text up to the closing quote and the text behind it. -/
def quoteBody : Str → Option (Str × Str)
  | [] => none
  | ['\\'] => none
  | '\\' :: c :: s => (quoteBody s).map fun found => ('\\' :: c :: found.1, found.2)
  | c :: s =>
    if c = '\'' then some ([], s)
    else (quoteBody s).map fun found => (c :: found.1, found.2)

def blank (c : Char) : Bool := c == ' ' || c == '\t' || c == '\n'

/-- The words in `$'…'` quotes at the start of a command's arguments, and the text from the first
character on that stands outside the quotes; none if a quote is not closed. -/
def quotedWords : Nat → Str → Option (List Str × Str)
  | 0, _ => none
  | fuel + 1, s =>
    match s.dropWhile blank with
    | '$' :: '\'' :: t =>
      match quoteBody t with
      | none => none
      | some (body, rest) =>
        if rest.head?.all blank then
          (quotedWords fuel rest).map fun found => (value body :: found.1, found.2)
        else some ([value body], rest)
    | t => some ([], t)

theorem number_split {digit : Char → Option Nat} {base : Nat} (hbase : ∀ c d, digit c = some d → d < base)
    (n v : Nat) (s : Str) : ∃ ds, s = ds ++ (number digit base n v s).2 ∧ (∀ c ∈ ds, (digit c).isSome) ∧
      ds.length ≤ n ∧ (number digit base n v s).1 < (v + 1) * base ^ ds.length ∧
      (0 < n → (s.head?.bind digit).isSome → ds ≠ []) := by
  induction n generalizing v s with
  | zero => exact ⟨[], by simp [number]⟩
  | succ n ih =>
    cases s with
    | nil => exact ⟨[], by simp [number]⟩
    | cons c s =>
      cases hd : digit c with
      | none => exact ⟨[], by simp [number, hd]⟩
      | some d =>
        obtain ⟨ds, hs, hdigits, hlen, hlt, _⟩ := ih (v * base + d) s
        have hnum : number digit base (n + 1) v (c :: s) = number digit base n (v * base + d) s := by
          simp [number, hd]
        rw [hnum]
        refine ⟨c :: ds, congrArg (c :: ·) hs, ?_, by simpa using hlen, ?_, by simp⟩
        · intro x hx
          rcases List.mem_cons.mp hx with rfl | hx
          · simp [hd]
          · exact hdigits x hx
        · have hle : v * base + d + 1 ≤ (v + 1) * base := by
            have := hbase c d hd
            rw [Nat.add_mul]
            omega
          calc (number digit base n (v * base + d) s).1
              < (v * base + d + 1) * base ^ ds.length := hlt
            _ ≤ (v + 1) * base * base ^ ds.length := Nat.mul_le_mul_right _ hle
            _ = (v + 1) * base ^ (c :: ds).length := by rw [List.length_cons, Nat.pow_succ', Nat.mul_assoc]

theorem length_utf8 {v k : Nat} (hk : k ≤ 8) (hv : v < 16 ^ k) : (utf8 v).length ≤ k + 1 := by
  unfold utf8
  split_ifs
  all_goals
    simp only [List.length_cons, List.length_nil]
    interval_cases k <;> omega

theorem digitIn_eq_some {low high c : Char} {offset d : Nat} :
    digitIn low high offset c = some d ↔
      (low.toNat ≤ c.toNat ∧ c.toNat ≤ high.toNat) ∧ d = c.toNat - low.toNat + offset := by
  unfold digitIn
  split_ifs with h
  · simp [h, eq_comm]
  · simp [h]

theorem octDigit_lt (c : Char) (d : Nat) (h : octDigit c = some d) : d < 8 := by
  obtain ⟨⟨hlow, hhigh⟩, rfl⟩ := digitIn_eq_some.mp h
  have : '0'.toNat = 48 := rfl
  have : '7'.toNat = 55 := rfl
  omega

theorem hexDigit_cases {c : Char} {d : Nat} (h : hexDigit c = some d) :
    digitIn '0' '9' 0 c = some d ∨ digitIn 'a' 'f' 10 c = some d ∨ digitIn 'A' 'F' 10 c = some d := by
  simp only [hexDigit, Option.orElse_eq_orElse, Option.orElse_eq_or, Option.or_eq_some_iff] at h
  rcases h with h | ⟨_, h | ⟨_, h⟩⟩
  · exact .inl h
  · exact .inr (.inl h)
  · exact .inr (.inr h)

theorem hexDigit_lt (c : Char) (d : Nat) (h : hexDigit c = some d) : d < 16 := by
  have : '0'.toNat = 48 := rfl
  have : '9'.toNat = 57 := rfl
  have : 'a'.toNat = 97 := rfl
  have : 'f'.toNat = 102 := rfl
  have : 'A'.toNat = 65 := rfl
  have : 'F'.toNat = 70 := rfl
  rcases hexDigit_cases h with h | h | h
  all_goals
    obtain ⟨⟨hlow, hhigh⟩, rfl⟩ := digitIn_eq_some.mp h
    omega

theorem length_number {digit : Char → Option Nat} {base : Nat} (hbase : ∀ c d, digit c = some d → d < base)
    (n v : Nat) (s : Str) : (number digit base n v s).2.length ≤ s.length := by
  obtain ⟨ds, hs, _⟩ := number_split hbase n v s
  have := congrArg List.length hs
  rw [List.length_append] at this
  omega

theorem length_closeBrace (s : Str) : (closeBrace s).length ≤ s.length := by
  unfold closeBrace
  split
  next => simp
  next => exact Nat.le_refl _

theorem length_escapeHex (s : Str) : (escapeHex s).2.length ≤ s.length := by
  unfold escapeHex
  split
  next s =>
    have hdigits := length_number hexDigit_lt s.length 0 s
    have hbrace := length_closeBrace (number hexDigit 16 s.length 0 s).2
    simp only [List.length_cons]
    omega
  next =>
    split_ifs
    · exact length_number hexDigit_lt 2 0 s
    · exact Nat.le_refl _

theorem length_escapeCode (c : Char) (n : Nat) (s : Str) : (escapeCode c n s).2.length ≤ s.length := by
  unfold escapeCode
  split_ifs
  · exact length_number hexDigit_lt n 0 s
  · exact Nat.le_refl _

theorem length_escapeControl (s : Str) : (escapeControl s).2.length ≤ s.length := by
  unfold escapeControl
  split
  next => exact Nat.le_refl _
  next =>
    simp only [List.length_cons]
    omega
  next => simp

theorem length_escape (s : Str) : (escape s).2.length ≤ s.length := by
  rcases s with _ | ⟨c, s⟩
  · exact Nat.le_refl 0
  rw [escape]
  split_ifs
  · simp
  · exact length_number octDigit_lt 3 0 (c :: s)
  · exact (length_escapeHex s).trans (by simp)
  · exact (length_escapeCode c 4 s).trans (by simp)
  · exact (length_escapeCode c 8 s).trans (by simp)
  · exact (length_escapeControl s).trans (by simp)
  · simp

theorem decode_plain {a : Str} (ha : '\\' ∉ a) (s : Str) (n : Nat) :
    decode (n + a.length) (a ++ s) = a ++ decode n s := by
  induction a with
  | nil => rfl
  | cons c a ih =>
    have hc : c ≠ '\\' := fun h => ha (by simp [h])
    rw [List.length_cons, ← Nat.add_assoc, List.cons_append, decode, if_neg hc, ih fun h => ha (by simp [h])]
    rfl

end AnsiQuote
