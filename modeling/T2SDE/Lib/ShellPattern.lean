import T2SDE.Lib.Text

namespace Shell

open Text

section Pattern

/-- What may stand in a bracket expression: the characters from one to another, or a class. -/
inductive Member
  | range (first last : Char)
  | cls (name : Str)

inductive Piece
  | char (c : Char)
  | any
  | run
  | oneOf (negated : Bool) (members : List Member)

/-- The character classes, of the C locale. -/
def inClass (name : Str) (c : Char) : Bool :=
  let between (a b : Char) : Bool := a.toNat ≤ c.toNat && c.toNat ≤ b.toNat
  let lower := between 'a' 'z'
  let upper := between 'A' 'Z'
  let digit := between '0' '9'
  let blank := c == ' ' || c == '\t'
  let graph := between '!' '~'
  if name = "lower".toList then lower
  else if name = "upper".toList then upper
  else if name = "digit".toList then digit
  else if name = "alpha".toList then lower || upper
  else if name = "alnum".toList then lower || upper || digit
  else if name = "xdigit".toList then digit || between 'a' 'f' || between 'A' 'F'
  else if name = "blank".toList then blank
  else if name = "space".toList then blank || between '\n' '\r'
  else if name = "graph".toList then graph
  else if name = "print".toList then graph || c == ' '
  else if name = "punct".toList then graph && !(lower || upper || digit)
  else if name = "cntrl".toList then c.toNat < 32 || c.toNat == 127
  else false

def Member.admits : Member → Char → Bool
  | .range first last, c => first.toNat ≤ c.toNat && c.toNat ≤ last.toNat
  | .cls name, c => inClass name c

def Piece.admits : Piece → Char → Bool
  | .char c, d => c == d
  | .any, _ => true
  | .run, _ => false
  | .oneOf negated members, d => (members.any fun m => m.admits d) != negated

/-- A bracket expression behind its bracket, and the rest of the pattern. A bracket that comes first
is a member. -/
def bracket : Nat → Bool → Str → Option (List Member × Str)
  | 0, _, _ => none
  | _, _, [] => none
  | fuel + 1, start, c :: s =>
    let name := s.tail.takeWhile (· != ':')
    if c = ']' ∧ ¬start then some ([], s)
    else if c = '[' ∧ s.head? = some ':' ∧ [':', ']'] <+: s.tail.dropWhile (· != ':') then
      (bracket fuel false (s.tail.drop (name.length + 2))).map fun r => (.cls name :: r.1, r.2)
    else if c = '\\' ∧ s ≠ [] then
      (bracket fuel false s.tail).map fun r => (.range (s.headD c) (s.headD c) :: r.1, r.2)
    else if s.head? = some '-' ∧ s.tail ≠ [] ∧ s.tail.head? ≠ some ']' then
      (bracket fuel false s.tail.tail).map fun r => (.range c (s.tail.headD c) :: r.1, r.2)
    else (bracket fuel false s).map fun r => (.range c c :: r.1, r.2)

def pieces : Nat → Str → List Piece
  | 0, _ => []
  | _, [] => []
  | fuel + 1, c :: s =>
    if c = '\\' ∧ s ≠ [] then .char (s.headD c) :: pieces fuel s.tail
    else if c = '?' then .any :: pieces fuel s
    else if c = '*' then .run :: pieces fuel s
    else if c = '[' then
      let negated := s.head? = some '!' ∨ s.head? = some '^'
      match bracket s.length true (if negated then s.tail else s) with
      | some (members, rest) => .oneOf negated members :: pieces fuel rest
      | none => .char c :: pieces fuel s
    else .char c :: pieces fuel s

def coversPieces : List Piece → Str → Bool
  | [], s => s.isEmpty
  | .run :: ps, s => s.tails.any (coversPieces ps)
  | _ :: _, [] => false
  | p :: ps, c :: s => p.admits c && coversPieces ps s

/-- Whether a pattern of the shell matches a whole text. -/
def covers (pattern s : Str) : Bool := coversPieces (pieces pattern.length pattern) s

/-- The longest beginning of at most this length that the pattern matches. -/
def longestFrom (pattern s : Str) : Nat → Option Nat
  | 0 => if covers pattern [] then some 0 else none
  | k + 1 => if covers pattern (s.take (k + 1)) then some (k + 1) else longestFrom pattern s k

/-- `${s//pattern/repl}`; the counter is what still belongs to the match just replaced. -/
def replaceAux (pattern repl : Str) : Nat → Str → Str
  | _, [] => []
  | skip + 1, _ :: s => replaceAux pattern repl skip s
  | 0, c :: s =>
    match longestFrom pattern (c :: s) (c :: s).length with
    | none => c :: replaceAux pattern repl 0 s
    | some 0 => repl ++ c :: replaceAux pattern repl 0 s
    | some (k + 1) => repl ++ replaceAux pattern repl k s

def replaceAll (pattern repl s : Str) : Str := replaceAux pattern repl 0 s

def removeSuffixFrom (pattern s : Str) : Nat → Str
  | 0 => if covers pattern s then [] else s
  | k + 1 => if covers pattern (s.drop (k + 1)) then s.take (k + 1) else removeSuffixFrom pattern s k

/-- `${s%pattern}` -/
def removeSuffix (pattern s : Str) : Str := removeSuffixFrom pattern s s.length

def removePrefixFrom (pattern s : Str) : Nat → Str
  | 0 => if covers pattern s then [] else s
  | k + 1 =>
    if covers pattern (s.take (s.length - (k + 1))) then s.drop (s.length - (k + 1))
    else removePrefixFrom pattern s k

/-- `${s#pattern}` -/
def removePrefix (pattern s : Str) : Str := removePrefixFrom pattern s s.length

end Pattern

section Literal

variable {pattern repl s t u w : Str} {c : Char} {k fuel : Nat}

/-- The characters that mean something in a pattern. -/
def special : Str := ['*', '?', '[', '\\']

theorem pieces_literal (h : ∀ c ∈ w, c ∉ special) (hfuel : w.length ≤ fuel) :
    pieces fuel w = w.map .char := by
  induction w generalizing fuel with
  | nil => cases fuel <;> rfl
  | cons c w ih =>
    obtain ⟨fuel, rfl⟩ := Nat.exists_eq_add_of_le' hfuel
    have hc := h c List.mem_cons_self
    simp only [special, List.mem_cons, List.not_mem_nil, or_false, not_or] at hc
    obtain ⟨hstar, hany, hset, hescape⟩ := hc
    have hrest : pieces (fuel + w.length) w = w.map .char :=
      ih (fun d hd => h d (List.mem_cons_of_mem c hd)) (Nat.le_add_left _ _)
    rw [List.length_cons, ← Nat.add_assoc, pieces, if_neg fun heq => hescape heq.1, if_neg hany, if_neg hstar,
      if_neg hset, hrest, List.map_cons]

theorem coversPieces_chars (w s : Str) : coversPieces (w.map .char) s = true ↔ s = w := by
  induction w generalizing s with
  | nil => simp [coversPieces]
  | cons c w ih =>
    cases s with
    | nil => simp [coversPieces]
    | cons d s =>
      simp only [List.map_cons, coversPieces, Piece.admits, Bool.and_eq_true, beq_iff_eq, ih, List.cons.injEq]
      exact and_congr_left' eq_comm

theorem coversPieces_chars_append (w : Str) (ps : List Piece) (s : Str) :
    coversPieces (w.map .char ++ ps) s = true ↔ ∃ t, s = w ++ t ∧ coversPieces ps t = true := by
  induction w generalizing s with
  | nil => simp
  | cons c w ih =>
    cases s with
    | nil => simp [coversPieces]
    | cons d s =>
      simp only [List.map_cons, List.cons_append, coversPieces, Piece.admits, Bool.and_eq_true,
        beq_iff_eq, ih,
        List.cons.injEq]
      constructor
      · rintro ⟨rfl, t, rfl, ht⟩
        exact ⟨t, ⟨rfl, rfl⟩, ht⟩
      · rintro ⟨t, ⟨rfl, rfl⟩, ht⟩
        exact ⟨rfl, t, rfl, ht⟩

theorem coversPieces_run (ps : List Piece) (s : Str) :
    coversPieces (.run :: ps) s = true ↔ ∃ t, t <:+ s ∧ coversPieces ps t = true := by
  simp only [coversPieces, List.any_eq_true, List.mem_tails]

/-- A pattern without special characters matches itself only. -/
theorem covers_literal (h : ∀ c ∈ w, c ∉ special) (s : Str) : covers w s = true ↔ s = w := by
  rw [covers, pieces_literal h (Nat.le_refl _)]
  exact coversPieces_chars w s

/-- Within a text, the pattern matches this text only. -/
def Only (pattern w s : Str) : Prop := ∀ t, t <:+: s → (covers pattern t = true ↔ t = w)

theorem Only.inside (h : Only pattern w s) (ht : t <:+: s) : Only pattern w t := fun u hu => h u (hu.trans ht)

theorem take_eq_iff (hk : k ≤ s.length) : s.take k = w ↔ w <+: s ∧ w.length = k := by
  constructor
  · rintro rfl
    exact ⟨List.take_prefix k s, List.length_take_of_le hk⟩
  · rintro ⟨hpre, rfl⟩
    exact (List.prefix_iff_eq_take.mp hpre).symm

theorem longestFrom_only (h : Only pattern w s) (hk : k ≤ s.length) :
    longestFrom pattern s k = if w <+: s ∧ w.length ≤ k then some w.length else none := by
  induction k with
  | zero =>
    have hcovers := h [] (List.nil_infix)
    rw [longestFrom]
    by_cases hw : w = []
    · rw [if_pos (hcovers.mpr hw.symm), if_pos
        ⟨by rw [hw]; exact List.nil_prefix, by rw [hw]; exact Nat.le_refl _⟩, hw]
      rfl
    · rw [if_neg fun heq => hw (hcovers.mp heq).symm,
        if_neg fun heq => hw (List.length_eq_zero_iff.mp (Nat.le_zero.mp heq.2))]
  | succ k ih =>
    have hcovers := (h _ (List.take_prefix (k + 1) s).isInfix).trans (take_eq_iff hk)
    rw [longestFrom, ih (by omega)]
    by_cases hw : w <+: s ∧ w.length = k + 1
    · rw [if_pos (hcovers.mpr hw), if_pos ⟨hw.1, by omega⟩, hw.2]
    · rw [if_neg fun heq => hw (hcovers.mp heq)]
      by_cases hpre : w <+: s
      · have hne : w.length ≠ k + 1 := fun heq => hw ⟨hpre, heq⟩
        by_cases hle : w.length ≤ k
        · rw [if_pos ⟨hpre, hle⟩, if_pos ⟨hpre, by omega⟩]
        · rw [if_neg fun heq => hle heq.2, if_neg fun heq => hle (by omega)]
      · rw [if_neg fun heq => hpre heq.1, if_neg fun heq => hpre heq.1]

theorem replaceAux_skip (u t : Str) :
    replaceAux pattern repl u.length (u ++ t) = replaceAux pattern repl 0 t := by
  induction u with
  | nil => rfl
  | cons c u ih => rw [List.cons_append, List.length_cons, replaceAux, ih]

/-- A character at which no match begins is copied. -/
theorem replaceAll_copy (h : Only pattern w (c :: s)) (hpre : ¬w <+: c :: s) :
    replaceAll pattern repl (c :: s) = c :: replaceAll pattern repl s := by
  rw [replaceAll, replaceAux, longestFrom_only h (Nat.le_refl _), if_neg fun heq => hpre heq.1, replaceAll]

theorem replaceAll_match (h : Only pattern w (w ++ s)) (hw : w ≠ []) :
    replaceAll pattern repl (w ++ s) = repl ++ replaceAll pattern repl s := by
  obtain ⟨c, w, rfl⟩ := List.exists_cons_of_ne_nil hw
  have hlongest := longestFrom_only h (Nat.le_refl _)
  rw [if_pos ⟨List.prefix_append _ _, by rw [List.length_append]; exact Nat.le_add_right _ _⟩] at hlongest
  rw [List.cons_append] at hlongest
  rw [replaceAll, List.cons_append, replaceAux, hlongest, List.length_cons]
  simp only [replaceAux_skip, replaceAll]

/-- Where nothing matches, nothing is replaced. -/
theorem replaceAll_none (h : Only pattern w s) (hno : ¬w <:+: s) : replaceAll pattern repl s = s := by
  induction s with
  | nil => rfl
  | cons c s ih =>
    have htail : s <:+: c :: s := (List.suffix_cons c s).isInfix
    rw [replaceAll_copy h fun hpre => hno hpre.isInfix, ih (h.inside htail) fun hin => hno (hin.trans htail)]

theorem removeSuffixFrom_only (h : Only pattern w s) (hk : k ≤ s.length) :
    removeSuffixFrom pattern s k = if w <:+ s ∧ s.length - k ≤ w.length then s.take (s.length - w.length)
    else s := by
  induction k with
  | zero =>
    have hcovers := h s (List.infix_refl s)
    rw [removeSuffixFrom]
    by_cases hw : s = w
    · rw [if_pos (hcovers.mpr hw), if_pos ⟨by rw [hw], by rw [hw]; omega⟩, hw, Nat.sub_self, List.take_zero]
    · have hshort : ¬(w <:+ s ∧ s.length - 0 ≤ w.length) := fun heq =>
        hw (heq.1.eq_of_length_le heq.2).symm
      rw [if_neg fun heq => hw (hcovers.mp heq), if_neg hshort]
  | succ k ih =>
    have hcovers := h _ (List.drop_suffix (k + 1) s).isInfix
    rw [removeSuffixFrom, ih (by omega)]
    by_cases hw : s.drop (k + 1) = w
    · have hsuf : w <:+ s := hw ▸ List.drop_suffix (k + 1) s
      have hlen : w.length = s.length - (k + 1) := by rw [← hw, List.length_drop]
      rw [if_pos (hcovers.mpr hw), if_pos ⟨hsuf, by omega⟩]
      congr 1
      omega
    · rw [if_neg fun heq => hw (hcovers.mp heq)]
      by_cases hsuf : w <:+ s
      · have hne : w.length ≠ s.length - (k + 1) := by
          intro heq
          have hdrop := List.suffix_iff_eq_drop.mp hsuf
          rw [heq, Nat.sub_sub_self hk] at hdrop
          exact hw hdrop.symm
        by_cases hle : s.length - k ≤ w.length
        · rw [if_pos ⟨hsuf, hle⟩, if_pos ⟨hsuf, by omega⟩]
        · rw [if_neg fun heq => hle heq.2, if_neg fun heq => hle (by omega)]
      · rw [if_neg fun heq => hsuf heq.1, if_neg fun heq => hsuf heq.1]

theorem removeSuffix_append (h : Only pattern w (s ++ w)) : removeSuffix pattern (s ++ w) = s := by
  rw [removeSuffix, removeSuffixFrom_only h (Nat.le_refl _), if_pos ⟨List.suffix_append s w, by omega⟩]
  simp

theorem removeSuffix_none (h : Only pattern w s) (hno : ¬w <:+ s) : removeSuffix pattern s = s := by
  rw [removeSuffix, removeSuffixFrom_only h (Nat.le_refl _), if_neg fun heq => hno heq.1]

theorem removePrefixFrom_only (h : Only pattern w s) (hk : k ≤ s.length) :
    removePrefixFrom pattern s k = if w <+: s ∧ s.length - k ≤ w.length then s.drop w.length else s := by
  induction k with
  | zero =>
    have hcovers := h s (List.infix_refl s)
    rw [removePrefixFrom]
    by_cases hw : s = w
    · rw [if_pos (hcovers.mpr hw), if_pos ⟨by rw [hw], by rw [hw]; omega⟩, hw, List.drop_length]
    · have hshort : ¬(w <+: s ∧ s.length - 0 ≤ w.length) := fun heq =>
        hw (heq.1.eq_of_length_le heq.2).symm
      rw [if_neg fun heq => hw (hcovers.mp heq), if_neg hshort]
  | succ k ih =>
    have hcovers :=
      (h _ (List.take_prefix (s.length - (k + 1)) s).isInfix).trans (take_eq_iff (Nat.sub_le _ _))
    rw [removePrefixFrom, ih (by omega)]
    by_cases hw : w <+: s ∧ w.length = s.length - (k + 1)
    · rw [if_pos (hcovers.mpr hw), if_pos ⟨hw.1, by omega⟩, hw.2]
    · rw [if_neg fun heq => hw (hcovers.mp heq)]
      by_cases hpre : w <+: s
      · have hne : w.length ≠ s.length - (k + 1) := fun heq => hw ⟨hpre, heq⟩
        by_cases hle : s.length - k ≤ w.length
        · rw [if_pos ⟨hpre, hle⟩, if_pos ⟨hpre, by omega⟩]
        · rw [if_neg fun heq => hle heq.2, if_neg fun heq => hle (by omega)]
      · rw [if_neg fun heq => hpre heq.1, if_neg fun heq => hpre heq.1]

theorem removePrefix_append (h : Only pattern w (w ++ s)) : removePrefix pattern (w ++ s) = s := by
  rw [removePrefix, removePrefixFrom_only h (Nat.le_refl _), if_pos ⟨List.prefix_append w s, by omega⟩,
    List.drop_left]

theorem removePrefix_none (h : Only pattern w s) (hno : ¬w <+: s) : removePrefix pattern s = s := by
  rw [removePrefix, removePrefixFrom_only h (Nat.le_refl _), if_neg fun heq => hno heq.1]

end Literal

end Shell
