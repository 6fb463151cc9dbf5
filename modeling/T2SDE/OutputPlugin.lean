import Mathlib.Data.List.DropRight
import T2SDE.Lib.AnsiQuote

namespace T2SDE.OutputPlugin

open Text CString AnsiQuote

/-- `${s//pat/rep}` for a pattern without wildcards -/
def replaceAll (pat rep : Str) : Nat → Str → Str
  | 0, s => s
  | _ + 1, [] => []
  | fuel + 1, c :: s =>
    if pat.isPrefixOf (c :: s) then rep ++ replaceAll pat rep fuel ((c :: s).drop pat.length)
    else c :: replaceAll pat rep fuel s

/-- The types of messages, each with a function of this name behind `echo_`. -/
def messageTypes : List Str := [
  "header".toList, "status".toList, "warning".toList, "error".toList, "pkg_deny".toList,
  "pkg_start".toList, "pkg_finish".toList, "pkg_abort".toList, "errorquote".toList]

/-- The three substitutions on an argument. Quote removal leaves two backslashes both of the
pattern and of its replacement in the first one. -/
def escapeTag (tag : Str) : Str :=
  let tag := replaceAll "\\\\".toList "\\\\".toList tag.length tag
  let tag := replaceAll "'".toList "\\'".toList tag.length tag
  replaceAll "\n".toList "\\n".toList tag.length tag

/-- The record that `echo_sched` writes. -/
def echoSched (request : Str) (args : List Str) : Str :=
  args.foldl (fun request tag => request ++ " $'".toList ++ escapeTag tag ++ ['\'']) request ++ ['\n']

/-- `read -r type data`: the first word of a line, and the rest without the blanks around it. -/
def readTypeData (line : Str) : Str × Str :=
  let line := line.dropWhile AnsiQuote.blank
  (line.takeWhile (!AnsiQuote.blank ·),
    ((line.dropWhile (!AnsiQuote.blank ·)).dropWhile AnsiQuote.blank).rdropWhile AnsiQuote.blank)

/-- The function that is called with its arguments, and what the text has outside the quotes. -/
structure Call where
  function : Str
  args : List Str
  outside : Str
  deriving DecidableEq

/-- `eval "echo_${type}_${plugin} $data"`; none if a quote is not closed. -/
def evalRecord (type plugin data : Str) : Option Call :=
  (quotedWords (data.length + 1) data).map fun found =>
    { function := "echo_".toList ++ type ++ '_' :: plugin, args := found.1, outside := found.2 }

/-- The calls of `output_proc` for the records on its pipe, at the terminal and each plugin. -/
def outputProc (plugins : List Str) (pipe : Str) : List (Option Call) :=
  (fileLines pipe).flatMap fun line =>
    ("terminal".toList :: plugins).map fun plugin =>
      evalRecord (readTypeData line).1 plugin (readTypeData line).2

/-- The backslash in front of this text stays as it is in the quotes. -/
def keeps : Str → Bool
  | [] => false
  | c :: t =>
    if c = '\n' then false
    else if (simpleEscapes.lookup c).isSome then false
    else if (octDigit c).isSome then false
    else if c = 'x' then t.head? != some '{' && !(t.head?.bind hexDigit).isSome
    else if c = 'u' then !(t.head?.bind hexDigit).isSome
    else if c = 'U' then !(t.head?.bind hexDigit).isSome
    else if c = 'c' then t.isEmpty
    else true

/-- Each backslash of the argument stays as it is. -/
def survives : Str → Bool
  | [] => true
  | c :: t => (c != '\\' || keeps t) && survives t

def encodeChar (c : Char) : Str :=
  if c = '\'' then "\\'".toList else if c = '\n' then "\\n".toList else [c]

def encode (tag : Str) : Str := tag.flatMap encodeChar

theorem replaceAll_self (pat : Str) (hne : pat ≠ []) {n : Nat} {s : Str} (hn : s.length ≤ n) :
    replaceAll pat pat n s = s := by
  induction n generalizing s with
  | zero => rfl
  | succ n ih =>
    cases s with
    | nil => rfl
    | cons c s =>
      rw [replaceAll]
      split_ifs with hpat
      · obtain ⟨rest, hrest⟩ := List.isPrefixOf_iff_prefix.mp hpat
        have hpos : 0 < pat.length := List.length_pos_iff.mpr hne
        rw [← hrest, List.drop_left, ih]
        have := congrArg List.length hrest
        simp only [List.length_append, List.length_cons] at this hn
        omega
      · rw [ih (by simpa using hn)]

theorem replaceAll_char (d : Char) (rep : Str) {n : Nat} {s : Str} (hn : s.length ≤ n) :
    replaceAll [d] rep n s = s.flatMap fun c => if c = d then rep else [c] := by
  induction n generalizing s with
  | zero =>
    rw [List.length_eq_zero_iff.mp (Nat.le_zero.mp hn)]
    rfl
  | succ n ih =>
    cases s with
    | nil => rfl
    | cons c s =>
      rw [replaceAll, List.flatMap_cons]
      by_cases hc : c = d
      · rw [if_pos (by simp [hc]), if_pos hc]
        exact congrArg (rep ++ ·) (ih (by simpa using hn))
      · rw [if_neg (by simpa using fun h => hc h.symm), if_neg hc, ih (by simpa using hn)]
        rfl

theorem escapeTag_eq (tag : Str) : escapeTag tag = encode tag := by
  have hquote : "'".toList = ['\''] := rfl
  have hline : "\n".toList = ['\n'] := rfl
  simp only [escapeTag]
  rw [replaceAll_self _ (by decide) le_rfl, hquote, hline, replaceAll_char _ _ le_rfl,
    replaceAll_char _ _ le_rfl,
    List.flatMap_assoc, encode]
  congr 1
  funext c
  by_cases hq : c = '\''
  · subst hq
    rfl
  by_cases hn : c = '\n'
  · subst hn
    rfl
  · simp [encodeChar, hq, hn]

/-- The arguments behind the type, each in quotes behind a blank. -/
def quoted (args : List Str) : Str :=
  args.flatMap fun arg => ' ' :: '$' :: '\'' :: (encode arg ++ ['\''])

theorem echoSched_eq (request : Str) (args : List Str) :
    echoSched request args = request ++ quoted args ++ ['\n'] := by
  unfold echoSched
  induction args generalizing request with
  | nil => simp [quoted]
  | cons arg args ih =>
    rw [List.foldl_cons, ih, escapeTag_eq]
    simp [quoted, List.append_assoc]

theorem encodeChar_plain {c : Char} (hq : c ≠ '\'') (hn : c ≠ '\n') : encodeChar c = [c] := by
  simp [encodeChar, hq, hn]

theorem encode_cons (c : Char) (s : Str) : encode (c :: s) = encodeChar c ++ encode s := rfl

theorem encode_plain {c : Char} (hq : c ≠ '\'') (hn : c ≠ '\n') (s : Str) :
    encode (c :: s) = c :: encode s := by
  rw [encode_cons, encodeChar_plain hq hn]
  rfl

/-- An argument whose backslashes take no quote away and leave none open. -/
def lexes : Str → Bool
  | [] => true
  | ['\\'] => false
  | '\\' :: c :: s => c != '\'' && lexes s
  | _ :: s => lexes s

theorem lexes_plain {c : Char} (hc : c ≠ '\\') (s : Str) : lexes (c :: s) = lexes s := by
  cases s with
  | nil => simp [lexes, hc]
  | cons d s => simp [lexes, hc]

theorem lexes_append {ds : Str} (h : '\\' ∉ ds) (s : Str) : lexes (ds ++ s) = lexes s := by
  induction ds with
  | nil => rfl
  | cons c ds ih =>
    have hc : c ≠ '\\' := fun hc => h (by simp [hc])
    rw [List.cons_append, lexes_plain hc, ih fun hd => h (by simp [hd])]

/-- Digits are not encoded, and the backslash is none. -/
structure PlainDigits (digit : Char → Option Nat) : Prop where
  plain : ∀ c, (digit c).isSome → c ≠ '\'' ∧ c ≠ '\n' ∧ c ≠ '\\'

theorem number_encode {digit : Char → Option Nat} (hdigit : PlainDigits digit) (base n v : Nat) (t : Str) :
    number digit base n v (encode t) =
      ((number digit base n v t).1, encode (number digit base n v t).2) := by
  have hnone : digit '\\' = none := by
    cases h : digit '\\' with
    | none => rfl
    | some d => exact absurd rfl (hdigit.plain _ (by rw [h]; rfl)).2.2
  induction n generalizing v t with
  | zero => rfl
  | succ n ih =>
    cases t with
    | nil => rfl
    | cons c t =>
      cases hc : digit c with
      | some d =>
        obtain ⟨hq, hn, _⟩ := hdigit.plain c (by rw [hc]; rfl)
        rw [encode_plain hq hn, number, number, hc]
        exact ih _ t
      | none =>
        have hstay : number digit base (n + 1) v (c :: t) = (v, c :: t) := by rw [number, hc]
        rw [hstay]
        by_cases hq : c = '\''
        · subst hq
          show number digit base (n + 1) v ('\\' :: '\'' :: encode t) = _
          rw [number, hnone]
          rfl
        by_cases hn : c = '\n'
        · subst hn
          show number digit base (n + 1) v ('\\' :: 'n' :: encode t) = _
          rw [number, hnone]
          rfl
        · rw [encode_plain hq hn, number, hc]

theorem octDigit_plain : PlainDigits octDigit where
  plain := by
    intro c h
    refine ⟨?_, ?_, ?_⟩
    all_goals
      rintro rfl
      revert h
      decide

theorem hexDigit_plain : PlainDigits hexDigit where
  plain := by
    intro c h
    refine ⟨?_, ?_, ?_⟩
    all_goals
      rintro rfl
      revert h
      decide

theorem isSome_head_encode {digit : Char → Option Nat} (hdigit : PlainDigits digit) (t : Str) :
    ((encode t).head?.bind digit).isSome = (t.head?.bind digit).isSome := by
  cases t with
  | nil => rfl
  | cons c t =>
    have hnone : (digit '\\').isSome = false := by
      rw [Bool.eq_false_iff]
      exact fun h => (hdigit.plain _ h).2.2 rfl
    have hstop (hc : ¬(c ≠ '\'' ∧ c ≠ '\n')) : (digit c).isSome = false := by
      rw [Bool.eq_false_iff]
      exact fun h => hc ⟨(hdigit.plain _ h).1, (hdigit.plain _ h).2.1⟩
    by_cases hq : c = '\''
    · rw [hq] at hstop ⊢
      exact hnone.trans (hstop (by simp)).symm
    by_cases hn : c = '\n'
    · rw [hn] at hstop ⊢
      exact hnone.trans (hstop (by simp)).symm
    · rw [encode_plain hq hn]
      rfl

/-- An escape in an encoded text stands for less than the argument has there: `out` and the plain
text `extra` behind it come from the backslash and the text `used`. -/
def Shrinks (out tail t : Str) : Prop :=
  ∃ extra used rest, tail = extra ++ encode rest ∧ t = used ++ rest ∧ '\\' ∉ extra ∧
    (lexes ('\\' :: t) = true → lexes rest = true) ∧ out.length + extra.length ≤ used.length

theorem Shrinks.used {out : Str} {c : Char} (used rest : Str) (hplain : '\\' ∉ used)
    (hshort : out.length ≤ (c :: used).length) : Shrinks out (encode rest) (c :: (used ++ rest)) := by
  refine ⟨[], c :: used, rest, rfl, rfl, by simp, fun h => ?_, hshort⟩
  rw [lexes, Bool.and_eq_true, lexes_append hplain] at h
  exact h.2

theorem number_rest {digit : Char → Option Nat} {base : Nat} (hbase : ∀ c d, digit c = some d → d < base)
    (hdigit : PlainDigits digit) (n : Nat) (t : Str) :
    ∃ ds rest, t = ds ++ rest ∧ (number digit base n 0 (encode t)).2 = encode rest ∧ '\\' ∉ ds ∧
      ds.length ≤ n ∧ (number digit base n 0 (encode t)).1 < base ^ ds.length ∧
      (0 < n → (t.head?.bind digit).isSome → 0 < ds.length) := by
  obtain ⟨ds, hsplit, hds, hlen, hlt, hpos⟩ := number_split hbase n 0 t
  rw [number_encode hdigit]
  exact ⟨ds, _, hsplit, rfl, fun h => (hdigit.plain _ (hds _ h)).2.2 rfl, hlen, by simpa using hlt,
    fun hn hhead => List.length_pos_iff.mpr (hpos hn hhead)⟩

theorem shrinks_octal {c : Char} (hc : (octDigit c).isSome) (t : Str) :
    Shrinks (escapeOctal (encode (c :: t))).1 (escapeOctal (encode (c :: t))).2 (c :: t) := by
  obtain ⟨ds, rest, hsplit, hrest, hplain, _, _, hpos⟩ := number_rest octDigit_lt octDigit_plain 3 (c :: t)
  have htail : (escapeOctal (encode (c :: t))).2 = encode rest := hrest
  rw [htail]
  rcases ds with _ | ⟨d, ds⟩
  · exact absurd (hpos (by omega) hc) (by simp)
  · obtain ⟨rfl, rfl⟩ := List.cons.inj hsplit
    exact .used ds rest (fun h => hplain (List.mem_cons_of_mem _ h)) (by simp [escapeOctal])

theorem closeBrace_encode (t : Str) : closeBrace (encode t) = encode (closeBrace t) := by
  rcases t with _ | ⟨c, t⟩
  · rfl
  by_cases hbrace : c = '}'
  · subst hbrace
    rfl
  have hsame {d : Char} (hd : d ≠ '}') (s : Str) : closeBrace (d :: s) = d :: s := by
    unfold closeBrace
    split
    next heq => exact absurd (List.cons.inj heq).1 hd
    next => rfl
  rw [hsame hbrace]
  by_cases hq : c = '\''
  · subst hq
    rfl
  by_cases hn : c = '\n'
  · subst hn
    rfl
  · rw [encode_plain hq hn, hsame hbrace]

theorem closeBrace_split (t : Str) : ∃ brace, t = brace ++ closeBrace t ∧ '\\' ∉ brace := by
  unfold closeBrace
  split
  next => exact ⟨['}'], rfl, by simp⟩
  next => exact ⟨[], rfl, by simp⟩

theorem shrinks_hex {t : Str} (ht : (t.head? != some '{' && !(t.head?.bind hexDigit).isSome) = false) :
    Shrinks (escapeHex (encode t)).1 (escapeHex (encode t)).2 ('x' :: t) := by
  rcases t with _ | ⟨c, t⟩
  · simp at ht
  by_cases hbrace : c = '{'
  · subst hbrace
    obtain ⟨ds, rest, rfl, hrest, hplain, _⟩ := number_rest hexDigit_lt hexDigit_plain (encode t).length t
    obtain ⟨brace, hbrace, hnone⟩ := closeBrace_split rest
    have htail : (escapeHex (encode ('{' :: (ds ++ rest)))).2 = encode (closeBrace rest) := by
      show closeBrace (number hexDigit 16 (encode (ds ++ rest)).length 0 (encode (ds ++ rest))).2 = _
      rw [hrest, closeBrace_encode]
    rw [htail]
    have hsplit : '{' :: (ds ++ rest) = '{' :: ds ++ brace ++ closeBrace rest := by
      nth_rewrite 1 [hbrace]
      simp
    rw [hsplit]
    exact .used ('{' :: ds ++ brace) _ (by simp [hplain, hnone])
      (by simp [escapeHex, encode_cons, encodeChar])
  · have hhex : (hexDigit c).isSome := by simpa [hbrace] using ht
    obtain ⟨hq, hn, _⟩ := hexDigit_plain.plain c hhex
    obtain ⟨ds, rest, hsplit, hrest, hplain, _, _, hpos⟩ := number_rest hexDigit_lt hexDigit_plain 2 (c :: t)
    have hescape : escapeHex (encode (c :: t)) =
        ([byte (number hexDigit 16 2 0 (encode (c :: t))).1],
          (number hexDigit 16 2 0 (encode (c :: t))).2) := by
      unfold escapeHex
      split
      next heq =>
        rw [encode_plain hq hn] at heq
        exact absurd (List.cons.inj heq).1 hbrace
      next => rw [if_pos (by rw [isSome_head_encode hexDigit_plain]; exact hhex)]
    rw [hescape]
    dsimp only
    rw [hrest, hsplit]
    exact .used ds rest hplain (by simp)

theorem shrinks_code (c : Char) {n : Nat} (hn : n ≤ 8) {t : Str}
    (ht : (t.head?.bind hexDigit).isSome) :
    Shrinks (escapeCode c n (encode t)).1 (escapeCode c n (encode t)).2 (c :: t) := by
  obtain ⟨ds, rest, hsplit, hrest, hplain, hlen, hlt, _⟩ := number_rest hexDigit_lt hexDigit_plain n t
  have hescape : escapeCode c n (encode t) =
      (utf8 (number hexDigit 16 n 0 (encode t)).1, (number hexDigit 16 n 0 (encode t)).2) := by
    unfold escapeCode
    rw [if_pos (by rwa [isSome_head_encode hexDigit_plain])]
  rw [hescape]
  dsimp only
  rw [hrest, hsplit]
  exact .used ds rest hplain (length_utf8 (hlen.trans hn) (hsplit ▸ hlt))

theorem escapeControl_plain {d : Char} (hd : d ≠ '\\') (s : Str) :
    escapeControl (d :: s) = ([control d], s) := by
  unfold escapeControl
  split
  next heq => cases heq
  next heq => exact absurd (List.cons.inj heq).1 hd
  next heq =>
    obtain ⟨rfl, rfl⟩ := List.cons.inj heq
    rfl

/-- A control escape of a backslash takes the backslash of the next character along. -/
theorem shrinks_controlBackslash (t : Str) :
    Shrinks (escapeControl ('\\' :: encode t)).1 (escapeControl ('\\' :: encode t)).2 ('c' :: '\\' :: t) := by
  have hlexes (c : Char) (t : Str) : lexes ('\\' :: 'c' :: '\\' :: c :: t) = (c != '\'' && lexes t) := rfl
  rcases t with _ | ⟨e, t⟩
  · exact ⟨[], ['c', '\\'], [], rfl, rfl,
      by simp, fun h => by simp [lexes] at h, by simp [escapeControl, encode]⟩
  by_cases hb : e = '\\'
  · subst hb
    exact ⟨[], ['c', '\\', '\\'], t, rfl, rfl, by simp, fun h => by simpa [hlexes] using h,
      by simp [escapeControl, encode, encodeChar]⟩
  by_cases hq : e = '\''
  · subst hq
    exact ⟨['\''], ['c', '\\', '\''], t, rfl, rfl, by simp, fun h => by simp [hlexes] at h,
      by simp [escapeControl, encode, encodeChar]⟩
  by_cases hn : e = '\n'
  · subst hn
    exact ⟨['n'], ['c', '\\', '\n'], t, rfl, rfl, by simp, fun h => by simpa [hlexes] using h,
      by simp [escapeControl, encode, encodeChar]⟩
  · have hescape : escapeControl ('\\' :: encode (e :: t)) = ([control '\\'], encode (e :: t)) := by
      rw [encode_plain hq hn]
      unfold escapeControl
      split
      next heq => cases heq
      next heq =>
        obtain ⟨_, heq⟩ := List.cons.inj heq
        exact absurd (List.cons.inj heq).1 hb
      next heq =>
        obtain ⟨rfl, rfl⟩ := List.cons.inj heq
        rfl
    rw [hescape]
    refine ⟨[], ['c', '\\'], e :: t, rfl, rfl, by simp, fun h => ?_, by simp⟩
    rw [hlexes, Bool.and_eq_true] at h
    rw [lexes_plain hb]
    exact h.2

theorem shrinks_control (d : Char) (t : Str) :
    Shrinks (escapeControl (encode (d :: t))).1 (escapeControl (encode (d :: t))).2 ('c' :: d :: t) := by
  by_cases hb : d = '\\'
  · subst hb
    exact shrinks_controlBackslash t
  have hlexes : lexes ('\\' :: 'c' :: d :: t) = lexes t := lexes_plain hb t
  by_cases hq : d = '\''
  · subst hq
    exact ⟨['\''], ['c', '\''], t, rfl, rfl, by simp, fun h => by rwa [hlexes] at h,
      by simp [escapeControl, encode, encodeChar]⟩
  by_cases hn : d = '\n'
  · subst hn
    exact ⟨['n'], ['c', '\n'], t, rfl, rfl, by simp, fun h => by rwa [hlexes] at h,
      by simp [escapeControl, encode, encodeChar]⟩
  · rw [encode_plain hq hn, escapeControl_plain hb]
    exact .used [d] t (by simp [Ne.symm hb]) (by simp)

theorem escapeHex_kept {t : Str} (hbrace : t.head? ≠ some '{')
    (hhex : (t.head?.bind hexDigit).isSome = false) :
    escapeHex (encode t) = (['\\', 'x'], encode t) := by
  have hhead : (encode t).head? ≠ some '{' := by
    cases t with
    | nil => exact hbrace
    | cons c t =>
      by_cases hq : c = '\''
      · simp [hq, encode_cons, encodeChar]
      by_cases hn : c = '\n'
      · simp [hn, encode_cons, encodeChar]
      · rwa [encode_plain hq hn]
  unfold escapeHex
  split
  next heq =>
    rw [heq] at hhead
    exact absurd rfl hhead
  next => rw [if_neg (by simp [isSome_head_encode hexDigit_plain, hhex])]

theorem escapeCode_kept (c : Char) (n : Nat) {t : Str} (hhex : (t.head?.bind hexDigit).isSome = false) :
    escapeCode c n (encode t) = (['\\', c], encode t) := by
  unfold escapeCode
  rw [if_neg (by simp [isSome_head_encode hexDigit_plain, hhex])]

/-- The ways of a backslash in an argument, with the text behind it. -/
inductive EscapeView (t : Str) : Prop
  | kept (c : Char) (rest : Str) (ht : t = c :: rest) (hkeeps : keeps t = true) (hc : c ≠ '\\')
      (hescape : escape (encode t) = (['\\', c], encode rest))
  | newline (rest : Str) (ht : t = '\n' :: rest) (hkeeps : keeps t = false)
      (hescape : escape (encode t) = (['\\'], 'n' :: encode rest))
  | shrunk (hkeeps : keeps t = false) (hshrinks : Shrinks (escape (encode t)).1 (escape (encode t)).2 t)

theorem escape_view {c : Char} (hq : c ≠ '\'') (t : Str) : EscapeView (c :: t) := by
  by_cases hn : c = '\n'
  · subst hn
    exact .newline t rfl rfl rfl
  have henc : encode (c :: t) = c :: encode t := encode_plain hq hn t
  by_cases hsimple : (simpleEscapes.lookup c).isSome
  · refine .shrunk (by simp only [keeps, hn, hsimple, if_false, if_true]) ?_
    rw [henc, escape, if_pos hsimple]
    exact ⟨[], [c], t, rfl, rfl, by simp, fun h => (Bool.and_eq_true_iff.mp h).2, by simp⟩
  by_cases hoct : (octDigit c).isSome
  · refine .shrunk (by simp only [keeps, hn, hsimple, hoct, if_false, if_true, Bool.false_eq_true]) ?_
    rw [henc, escape, if_neg hsimple, if_pos hoct, ← henc]
    exact shrinks_octal hoct t
  by_cases hx : c = 'x'
  · subst hx
    have hescape : escape (encode ('x' :: t)) = escapeHex (encode t) := rfl
    have hkeeps : keeps ('x' :: t) = (t.head? != some '{' && !(t.head?.bind hexDigit).isSome) := rfl
    cases hfits : keeps ('x' :: t) with
    | true =>
      obtain ⟨hbrace, hhex⟩ := Bool.and_eq_true_iff.mp (hkeeps ▸ hfits)
      exact .kept 'x' t rfl hfits (by decide) (hescape.trans
        (escapeHex_kept (by simpa using hbrace) (by simpa using hhex)))
    | false => exact .shrunk hfits (hescape ▸ shrinks_hex (hkeeps ▸ hfits))
  have hcode (c : Char) (n : Nat) (hn : n ≤ 8) (hc : c ≠ '\\')
      (hescape : escape (encode (c :: t)) = escapeCode c n (encode t))
      (hkeeps : keeps (c :: t) = !(t.head?.bind hexDigit).isSome) : EscapeView (c :: t) := by
    cases hhex : (t.head?.bind hexDigit).isSome with
    | true =>
      rw [hhex] at hkeeps
      exact .shrunk hkeeps (hescape ▸ shrinks_code c hn hhex)
    | false =>
      rw [hhex] at hkeeps
      exact .kept c t rfl hkeeps hc (hescape.trans (escapeCode_kept c n hhex))
  by_cases hu : c = 'u'
  · subst hu
    exact hcode 'u' 4 (by omega) (by decide) rfl rfl
  by_cases hU : c = 'U'
  · subst hU
    exact hcode 'U' 8 (by omega) (by decide) rfl rfl
  by_cases hc : c = 'c'
  · subst hc
    have hescape : escape (encode ('c' :: t)) = escapeControl (encode t) := rfl
    cases t with
    | nil => exact .kept 'c' [] rfl rfl (by decide) hescape
    | cons d t => exact .shrunk rfl (hescape ▸ shrinks_control d t)
  · have hbackslash : c ≠ '\\' := by
      rintro rfl
      exact hsimple rfl
    refine .kept c t rfl ?_ hbackslash ?_
    · simp only [keeps, hn, hsimple, hoct, hx, hu, hU, hc, if_false, Bool.false_eq_true]
    · rw [henc]
      simp only [escape, hsimple, hoct, hx, hu, hU, hc, if_false, Bool.false_eq_true]

theorem decode_nil (n : Nat) : decode n [] = [] := by
  cases n with
  | zero => rfl
  | succ n => rfl

theorem decode_char {c : Char} (hc : c ≠ '\\') {t : Str} {n : Nat} (hn : (encode (c :: t)).length ≤ n) :
    ∃ m, (encode t).length ≤ m ∧ decode n (encode (c :: t)) = c :: decode m (encode t) := by
  rcases n with _ | m
  · by_cases hq : c = '\''
    · simp [hq, encode_cons, encodeChar] at hn
    by_cases hline : c = '\n'
    · simp [hline, encode_cons, encodeChar] at hn
    · simp [encode_plain hq hline] at hn
  by_cases hq : c = '\''
  · subst hq
    have hlen : (encode ('\'' :: t)).length = (encode t).length + 2 := by simp [encode_cons, encodeChar]
    exact ⟨m, by omega, rfl⟩
  by_cases hline : c = '\n'
  · subst hline
    have hlen : (encode ('\n' :: t)).length = (encode t).length + 2 := by simp [encode_cons, encodeChar]
    exact ⟨m, by omega, rfl⟩
  · rw [encode_plain hq hline] at hn ⊢
    exact ⟨m, by simpa using hn, by rw [decode, if_neg hc]⟩

theorem decode_backslash {t : Str} {n : Nat} (hn : (encode ('\\' :: t)).length ≤ n) :
    ∃ m, (escape (encode t)).2.length ≤ m ∧
      decode n (encode ('\\' :: t)) = (escape (encode t)).1 ++ decode m (escape (encode t)).2 := by
  have henc : encode ('\\' :: t) = '\\' :: encode t := rfl
  rw [henc] at hn ⊢
  rcases n with _ | m
  · simp at hn
  · exact ⟨m, (length_escape _).trans (by simpa using hn), rfl⟩

theorem survives_plain {c : Char} (hc : c ≠ '\\') (t : Str) : survives (c :: t) = survives t := by
  simp [survives, hc]

/-- An argument that lexes is decoded to a text that is no longer, and to itself only if all its
backslashes survive. -/
theorem decode_encode {s : Str} (hs : lexes s = true) {n : Nat} (hn : (encode s).length ≤ n) :
    (decode n (encode s)).length ≤ s.length ∧ (decode n (encode s) = s → survives s = true) := by
  induction hlen : s.length using Nat.strongRecOn generalizing s n with
  | _ len ih =>
    subst hlen
    rcases s with _ | ⟨c, t⟩
    · simp [encode, decode_nil, survives]
    by_cases hc : c = '\\'
    · subst hc
      obtain ⟨m, hm, hdecode⟩ := decode_backslash hn
      rw [hdecode]
      rcases t with _ | ⟨c, t⟩
      · cases hs
      obtain ⟨hq, hlexes⟩ := Bool.and_eq_true_iff.mp hs
      rcases escape_view (by simpa using hq) t with
        ⟨d, rest, ht, hkeeps, hd, hescape⟩ | ⟨rest, ht, _, hescape⟩ | ⟨_, extra, used, rest, htail,
          hsplit, hplain, hrest, hshort⟩
      · obtain ⟨rfl, rfl⟩ := List.cons.inj ht
        rw [hescape] at hm ⊢
        obtain ⟨hle, hsame⟩ := ih t.length (by simp only [List.length_cons]; omega) hlexes hm rfl
        refine ⟨by simpa using hle, fun heq => ?_⟩
        have hdecoded : decode m (encode t) = t := by simpa using heq
        have hsurvives : survives ('\\' :: c :: t) = (keeps (c :: t) && survives (c :: t)) := rfl
        rw [hsurvives, hkeeps, survives_plain hd, hsame hdecoded]
        rfl
      · -- the letter of the encoded newline is left
        obtain ⟨rfl, rfl⟩ := List.cons.inj ht
        rw [hescape] at hm ⊢
        obtain ⟨m, rfl⟩ : ∃ k, m = k + 1 := ⟨m - 1, by simp only [List.length_cons] at hm; omega⟩
        have hletter : decode (m + 1) ('n' :: encode t) = 'n' :: decode m (encode t) := rfl
        obtain ⟨hle, _⟩ := ih t.length (by simp only [List.length_cons]; omega) hlexes (by simpa using hm) rfl
        rw [hletter]
        exact ⟨by simpa using hle, fun heq => by simp at heq⟩
      · rw [htail] at hm ⊢
        obtain ⟨m, rfl⟩ : ∃ k, m = k + extra.length :=
          ⟨m - extra.length, by rw [List.length_append] at hm; omega⟩
        have hlength : (c :: t).length = used.length + rest.length := by rw [hsplit, List.length_append]
        have hcons : (c :: t).length = t.length + 1 := rfl
        have hle := (ih rest.length (by simp only [List.length_cons]; omega) (hrest hs)
          (n := m) (by rw [List.length_append] at hm; omega) rfl).1
        rw [decode_plain hplain]
        have hlt : ((escape (encode (c :: t))).1 ++ (extra ++ decode m (encode rest))).length <
          ('\\' :: c :: t).length := by
          simp only [List.length_append, List.length_cons]
          omega
        exact ⟨hlt.le, fun heq => absurd (congrArg List.length heq) (by omega)⟩
    · obtain ⟨m, hm, hdecode⟩ := decode_char hc hn
      rw [lexes_plain hc] at hs
      obtain ⟨hle, hsame⟩ := ih t.length (by simp) hs hm rfl
      rw [hdecode, survives_plain hc]
      exact ⟨by simpa using hle, fun heq => hsame (List.cons.inj heq).2⟩

theorem decode_survives {s : Str} (hs : survives s = true) {n : Nat} (hn : (encode s).length ≤ n) :
    lexes s = true ∧ decode n (encode s) = s := by
  induction hlen : s.length using Nat.strongRecOn generalizing s n with
  | _ len ih =>
    subst hlen
    rcases s with _ | ⟨c, t⟩
    · exact ⟨rfl, decode_nil n⟩
    by_cases hc : c = '\\'
    · subst hc
      obtain ⟨hkeeps, hrest⟩ : keeps t = true ∧ survives t = true := by simpa [survives] using hs
      obtain ⟨m, hm, hdecode⟩ := decode_backslash hn
      rw [hdecode]
      rcases t with _ | ⟨c, t⟩
      · cases hkeeps
      have hq : c ≠ '\'' := by
        rintro rfl
        cases hkeeps
      rcases escape_view hq t with ⟨d, rest, ht, _, hd, hescape⟩ | ⟨rest, ht, hnot, _⟩ | ⟨hnot, _⟩
      · obtain ⟨rfl, rfl⟩ := List.cons.inj ht
        rw [hescape] at hm ⊢
        rw [survives_plain hd] at hrest
        obtain ⟨hlexes, hsame⟩ := ih t.length (by simp only [List.length_cons]; omega) hrest hm rfl
        exact ⟨Bool.and_eq_true_iff.mpr ⟨by simpa using hq, hlexes⟩, by simp [hsame]⟩
      · rw [hkeeps] at hnot
        cases hnot
      · rw [hkeeps] at hnot
        cases hnot
    · obtain ⟨m, hm, hdecode⟩ := decode_char hc hn
      rw [survives_plain hc] at hs
      obtain ⟨hlexes, hsame⟩ := ih t.length (by simp) hs hm rfl
      rw [hdecode, hsame, lexes_plain hc]
      exact ⟨hlexes, rfl⟩

/-- A quoted argument is lexed up to its closing quote, closed early inside, or left open at the
closing quote, which its last backslash takes away. -/
inductive BodyView (s t : Str) : Prop
  | closed (hs : lexes s = true) (hbody : quoteBody (encode s ++ '\'' :: t) = some (encode s, t))
  | early (hs : lexes s = false) (body rest : Str)
      (hbody : quoteBody (encode s ++ '\'' :: t) = some (body, encode rest ++ '\'' :: t))
  | late (hs : lexes s = false)
      (hbody : quoteBody (encode s ++ '\'' :: t) =
        (quoteBody t).map fun found => (encode s ++ '\'' :: found.1, found.2))

theorem quoteBody_escape (c : Char) (s : Str) :
    quoteBody ('\\' :: c :: s) = (quoteBody s).map fun found => ('\\' :: c :: found.1, found.2) := by
  rw [quoteBody]

theorem quoteBody_char {c : Char} (hb : c ≠ '\\') (hq : c ≠ '\'') (s : Str) :
    quoteBody (c :: s) = (quoteBody s).map fun found => (c :: found.1, found.2) := by
  rw [quoteBody, if_neg hq]
  · exact fun h => absurd h hb
  · exact fun _ _ h => absurd h hb

/-- More text in front of what is lexed. -/
theorem BodyView.front {s' s t : Str} {a : Str} (hlexes : lexes s' = lexes s)
    (hencode : encode s' = a ++ encode s)
    (hbody : quoteBody (a ++ (encode s ++ '\'' :: t)) =
      (quoteBody (encode s ++ '\'' :: t)).map fun found => (a ++ found.1, found.2)) (h : BodyView s t) :
    BodyView s' t := by
  rw [← List.append_assoc, ← hencode] at hbody
  rcases h with ⟨hs, hview⟩ | ⟨hs, body, rest, hview⟩ | ⟨hs, hview⟩
  · exact .closed (hlexes.trans hs) (by rw [hbody, hview, hencode]; rfl)
  · exact .early (hlexes.trans hs) (a ++ body) rest (by rw [hbody, hview]; rfl)
  · refine .late (hlexes.trans hs) ?_
    rw [hbody, hview, hencode, Option.map_map]
    congr 1
    funext found
    simp

theorem body_view (s t : Str) : BodyView s t := by
  induction hlen : s.length using Nat.strongRecOn generalizing s with
  | _ len ih =>
    subst hlen
    rcases s with _ | ⟨c, s⟩
    · exact .closed rfl rfl
    by_cases hb : c = '\\'
    · subst hb
      rcases s with _ | ⟨c, s⟩
      · exact .late rfl (quoteBody_escape '\'' t)
      have hlt : s.length < ('\\' :: c :: s).length := by
        simp only [List.length_cons]
        omega
      by_cases hq : c = '\''
      · subst hq
        exact .early rfl ['\\', '\\'] s rfl
      have hlexes : lexes ('\\' :: c :: s) = lexes s := by simp [lexes, hq]
      by_cases hn : c = '\n'
      · -- the backslash of the newline is escaped, its letter is plain
        subst hn
        refine (ih s.length hlt s rfl).front (a := ['\\', '\\', 'n']) hlexes rfl ?_
        show quoteBody ('\\' :: '\\' :: 'n' :: (encode s ++ '\'' :: t)) = _
        rw [quoteBody_escape, quoteBody_char (by decide) (by decide), Option.map_map]
        rfl
      · refine (ih s.length hlt s rfl).front (a := ['\\', c]) hlexes ?_ (quoteBody_escape c _)
        rw [encode_plain (by decide) (by decide), encode_plain hq hn]
        rfl
    · have hlexes := lexes_plain hb s
      have hview := ih s.length (by simp) s rfl
      by_cases hq : c = '\''
      · subst hq
        exact hview.front (a := ['\\', '\'']) hlexes rfl (quoteBody_escape _ _)
      by_cases hn : c = '\n'
      · subst hn
        exact hview.front (a := ['\\', 'n']) hlexes rfl (quoteBody_escape _ _)
      · exact hview.front (a := [c]) hlexes (encode_plain hq hn s) (quoteBody_char hb hq _)

theorem quotedWords_outside {s t : Str} (ht : s.dropWhile AnsiQuote.blank = t)
    (hquote : ¬['$', '\''] <+: t) (n : Nat) :
    quotedWords (n + 1) s = some ([], t) := by
  unfold quotedWords
  rw [ht]
  split
  next => exact absurd ⟨_, rfl⟩ hquote
  next => rfl

theorem quotedWords_quote {s t body rest : Str} (hs : s.dropWhile AnsiQuote.blank = '$' :: '\'' :: t)
    (hbody : quoteBody t = some (body, rest)) (n : Nat) :
    quotedWords (n + 1) s = if rest.head?.all AnsiQuote.blank then
      (quotedWords n rest).map fun found => (value body :: found.1, found.2)
      else some ([value body], rest) := by
  simp only [quotedWords, hs, hbody]

theorem quotedWords_open {s t : Str} (hs : s.dropWhile AnsiQuote.blank = '$' :: '\'' :: t)
    (hbody : quoteBody t = none) (n : Nat) : quotedWords (n + 1) s = none := by
  simp only [quotedWords, hs, hbody]

theorem quoted_cons (arg : Str) (args : List Str) :
    quoted (arg :: args) = ' ' :: '$' :: '\'' :: (encode arg ++ '\'' :: quoted args) := by
  simp [quoted]

theorem quoteBody_quoted (arg : Str) (args : List Str) :
    quoteBody (quoted (arg :: args)) = some ([' ', '$'], encode arg ++ '\'' :: quoted args) := by
  rw [quoted_cons, quoteBody_char (by decide) (by decide), quoteBody_char (by decide) (by decide)]
  rfl

theorem dropBlanks_encode (q t : Str) :
    ∃ q', (encode q ++ '\'' :: t).dropWhile AnsiQuote.blank = encode q' ++ '\'' :: t := by
  induction q with
  | nil => exact ⟨[], rfl⟩
  | cons c q ih =>
    by_cases hq : c = '\''
    · subst hq
      exact ⟨'\'' :: q, rfl⟩
    by_cases hn : c = '\n'
    · subst hn
      exact ⟨'\n' :: q, rfl⟩
    rw [encode_plain hq hn, List.cons_append]
    cases hblank : AnsiQuote.blank c with
    | true => rwa [List.dropWhile_cons_of_pos hblank]
    | false =>
      rw [List.dropWhile_cons_of_neg (by simp [hblank]), ← List.cons_append, ← encode_plain hq hn]
      exact ⟨c :: q, rfl⟩

/-- The only way for a quote to open behind an argument's quotes is its own closing quote. -/
theorem dollar_quote {q t x : Str} (h : encode q ++ '\'' :: t = '$' :: '\'' :: x) : q = ['$'] ∧ x = t := by
  have hhead {c : Char} {s y : Str} (hs : encode (c :: s) ++ '\'' :: t = '\'' :: y) : False := by
    by_cases hq : c = '\''
    · simp [hq, encode_cons, encodeChar] at hs
    by_cases hn : c = '\n'
    · simp [hn, encode_cons, encodeChar] at hs
    · rw [encode_plain hq hn, List.cons_append] at hs
      exact hq (List.cons.inj hs).1
  rcases q with _ | ⟨c, q⟩
  · simp [encode] at h
  by_cases hq : c = '\''
  · simp [hq, encode_cons, encodeChar] at h
  by_cases hn : c = '\n'
  · simp [hn, encode_cons, encodeChar] at h
  rw [encode_plain hq hn, List.cons_append] at h
  obtain ⟨rfl, htail⟩ := List.cons.inj h
  rcases q with _ | ⟨d, q⟩
  · exact ⟨rfl, (List.cons.inj htail).2.symm⟩
  · exact (hhead htail).elim

/-- A text that the quotes have let go of is not all in quotes again. -/
theorem outside_ne_nil (args : List Str) (q : Str) (n : Nat) (words : List Str) :
    quotedWords n (encode q ++ '\'' :: quoted args) ≠ some (words, []) := by
  induction args generalizing q n words with
  | nil =>
    rcases n with _ | n
    · simp [quotedWords]
    obtain ⟨q', hdrop⟩ := dropBlanks_encode q (quoted [])
    by_cases hquote : ['$', '\''] <+: encode q' ++ '\'' :: quoted []
    · obtain ⟨x, hx⟩ := hquote
      obtain ⟨rfl, rfl⟩ := dollar_quote hx.symm
      rw [quotedWords_open (hdrop.trans hx.symm) rfl]
      simp
    · rw [quotedWords_outside hdrop hquote]
      simp
  | cons arg args ih =>
    rcases n with _ | n
    · simp [quotedWords]
    obtain ⟨q', hdrop⟩ := dropBlanks_encode q (quoted (arg :: args))
    by_cases hquote : ['$', '\''] <+: encode q' ++ '\'' :: quoted (arg :: args)
    · obtain ⟨x, hx⟩ := hquote
      obtain ⟨rfl, rfl⟩ := dollar_quote hx.symm
      rw [quotedWords_quote (hdrop.trans hx.symm) (quoteBody_quoted arg args)]
      split_ifs
      · intro h
        obtain ⟨found, hfound, heq⟩ := Option.map_eq_some_iff.mp h
        exact ih arg n found.1
          (hfound.trans (congrArg (fun rest => some (found.1, rest)) (Prod.mk.inj heq).2))
      · simp
    · rw [quotedWords_outside hdrop hquote]
      simp

theorem value_encode {s : Str} (hs : lexes s = true) (hnul : nul ∉ s) :
    value (encode s) = s ↔ survives s = true := by
  obtain ⟨hle, hsame⟩ := decode_encode hs (n := (encode s).length) (le_refl _)
  constructor
  · intro h
    refine hsame ?_
    -- nothing is cut off at a null character
    have hbegin : s <+: decode (encode s).length (encode s) := by
      nth_rewrite 1 [← h]
      exact List.takeWhile_prefix _
    exact (hbegin.eq_of_length_le hle).symm
  · intro h
    rw [value, (decode_survives h (le_refl _)).2]
    exact List.takeWhile_eq_self_iff.mpr fun c hc => by simpa using fun heq : c = nul => hnul (heq ▸ hc)

theorem quotedWords_quoted (args : List Str) (hargs : ∀ arg ∈ args, nul ∉ arg) {n : Nat}
    (hn : args.length < n) :
    quotedWords n (quoted args) = some (args, []) ↔ ∀ arg ∈ args, survives arg = true := by
  induction args generalizing n with
  | nil =>
    obtain ⟨m, rfl⟩ : ∃ m, n = m + 1 := ⟨n - 1, by simp only [List.length_nil] at hn; omega⟩
    simp [quoted, quotedWords]
  | cons arg args ih =>
    obtain ⟨m, rfl⟩ : ∃ m, n = m + 1 := ⟨n - 1, by omega⟩
    have hdrop : (quoted (arg :: args)).dropWhile AnsiQuote.blank =
        '$' :: '\'' :: (encode arg ++ '\'' :: quoted args) := by
      rw [quoted_cons]
      rfl
    have hblank : (quoted args).head?.all AnsiQuote.blank = true := by
      cases args with
      | nil => rfl
      | cons arg args =>
        rw [quoted_cons]
        rfl
    rw [List.forall_mem_cons]
    rcases body_view arg (quoted args) with ⟨hs, hbody⟩ | ⟨hs, body, rest, hbody⟩ | ⟨hs, hbody⟩
    · rw [quotedWords_quote hdrop hbody, if_pos hblank, ← value_encode hs (hargs arg (by simp)),
        ← ih (fun a ha => hargs a (List.mem_cons_of_mem _ ha)) (by simpa using hn)]
      constructor
      · intro h
        obtain ⟨found, hfound, heq⟩ := Option.map_eq_some_iff.mp h
        obtain ⟨hwords, hrest⟩ := Prod.mk.inj heq
        obtain ⟨hvalue, hwords⟩ := List.cons.inj hwords
        exact ⟨hvalue, by rw [hfound, ← hwords, ← hrest]⟩
      · rintro ⟨hvalue, hwords⟩
        rw [hwords, Option.map_some, hvalue]
    all_goals
      refine iff_of_false ?_ fun h => ?_
    · rw [quotedWords_quote hdrop hbody]
      split_ifs
      · intro h
        obtain ⟨found, hfound, heq⟩ := Option.map_eq_some_iff.mp h
        exact outside_ne_nil args rest m found.1
          (hfound.trans (congrArg (fun rest => some (found.1, rest)) (Prod.mk.inj heq).2))
      · simp
    · rw [(decode_survives h.1 (le_refl _)).1] at hs
      cases hs
    · -- the quote goes on to the opening quote of the next argument
      cases args with
      | nil =>
        rw [quotedWords_open hdrop hbody]
        simp
      | cons next args =>
        have hnext : quoteBody (quoted (next :: args)) =
            some ([' ', '$'], encode next ++ '\'' :: quoted args) := quoteBody_quoted next args
        rw [hnext] at hbody
        rw [quotedWords_quote hdrop hbody]
        split_ifs
        · intro h
          obtain ⟨found, hfound, heq⟩ := Option.map_eq_some_iff.mp h
          exact outside_ne_nil args next m found.1
            (hfound.trans (congrArg (fun rest => some (found.1, rest)) (Prod.mk.inj heq).2))
        · simp
    · rw [(decode_survives h.1 (le_refl _)).1] at hs
      cases hs

theorem messageTypes_word {type : Str} (htype : type ∈ messageTypes) :
    type ≠ [] ∧ ∀ c ∈ type, AnsiQuote.blank c = false := by
  have hall : messageTypes.all (fun type => type != [] && type.all (!AnsiQuote.blank ·)) = true := by decide
  have hword := List.all_eq_true.mp hall type htype
  rw [Bool.and_eq_true, List.all_eq_true] at hword
  exact ⟨by simpa using hword.1, fun c hc => by simpa using hword.2 c hc⟩

theorem encode_no_newline (s : Str) : '\n' ∉ encode s := by
  intro h
  obtain ⟨c, _, hc⟩ := List.mem_flatMap.mp h
  by_cases hq : c = '\''
  · simp [encodeChar, hq] at hc
  by_cases hn : c = '\n'
  · simp [encodeChar, hn] at hc
  · rw [encodeChar_plain hq hn] at hc
    exact hn (List.mem_singleton.mp hc).symm

theorem echoSched_line {type : Str} (htype : type ∈ messageTypes) (args : List Str) :
    fileLines (echoSched type args) = [type ++ quoted args] := by
  have hline : '\n' ∉ type ++ quoted args := by
    intro h
    rcases List.mem_append.mp h with h | h
    · exact absurd ((messageTypes_word htype).2 _ h) (by decide)
    · obtain ⟨arg, _, harg⟩ := List.mem_flatMap.mp h
      simp [encode_no_newline] at harg
  rw [echoSched_eq, fileLines_line hline]
  rfl

theorem readTypeData_quoted {type : Str} (htype : type ∈ messageTypes) (args : List Str) :
    readTypeData (type ++ quoted args) = (type, (quoted args).drop 1) := by
  obtain ⟨hne, hword⟩ := messageTypes_word htype
  have hhead : (type ++ quoted args).dropWhile AnsiQuote.blank = type ++ quoted args := by
    cases type with
    | nil => exact absurd rfl hne
    | cons c type => exact List.dropWhile_cons_of_neg (by simp [hword c (by simp)])
  have htake : (type ++ quoted args).takeWhile (!AnsiQuote.blank ·) = type := by
    rw [List.takeWhile_append_of_pos fun c hc => by simp [hword c hc]]
    cases args with
    | nil => simp [quoted]
    | cons arg args =>
      rw [quoted_cons, List.takeWhile_cons_of_neg (by decide), List.append_nil]
  have hdrop : (type ++ quoted args).dropWhile (!AnsiQuote.blank ·) = quoted args := by
    rw [List.dropWhile_append_of_pos fun c hc => by simp [hword c hc]]
    cases args with
    | nil => rfl
    | cons arg args => rw [quoted_cons, List.dropWhile_cons_of_neg (by decide)]
  have hdata : (quoted args).dropWhile AnsiQuote.blank = (quoted args).drop 1 := by
    cases args with
    | nil => rfl
    | cons arg args =>
      rw [quoted_cons]
      rfl
  have hend : ((quoted args).drop 1).rdropWhile AnsiQuote.blank = (quoted args).drop 1 := by
    rcases List.eq_nil_or_concat' args with rfl | ⟨front, last, rfl⟩
    · rfl
    · obtain ⟨start, hstart⟩ : ∃ start, (quoted (front ++ [last])).drop 1 = start ++ ['\''] := by
        refine ⟨(quoted front ++ ' ' :: '$' :: '\'' :: encode last).drop 1, ?_⟩
        have hlen : 1 ≤ (quoted front ++ ' ' :: '$' :: '\'' :: encode last).length := by
          simp only [List.length_append, List.length_cons]
          omega
        rw [← List.drop_append_of_le_length hlen]
        simp [quoted]
      rw [hstart, List.rdropWhile_concat_neg _ _ _ (by decide)]
  simp only [readTypeData]
  rw [hhead, htake, hdrop, hdata, hend]

theorem quotedWords_congr {s t : Str} (h : s.dropWhile AnsiQuote.blank = t.dropWhile AnsiQuote.blank)
    (n : Nat) :
    quotedWords n s = quotedWords n t := by
  cases n with
  | zero => rfl
  | succ n => simp only [quotedWords, h]

theorem length_quoted (args : List Str) : 4 * args.length ≤ (quoted args).length := by
  induction args with
  | nil => simp
  | cons arg args ih =>
    rw [quoted_cons]
    simp only [List.length_cons, List.length_append]
    omega

theorem evalRecord_iff (type plugin : Str) (args : List Str) (hargs : ∀ arg ∈ args, nul ∉ arg) :
    evalRecord type plugin ((quoted args).drop 1) =
        some { function := "echo_".toList ++ type ++ '_' :: plugin, args := args, outside := [] } ↔
      ∀ arg ∈ args, survives arg = true := by
  have hsame : ((quoted args).drop 1).dropWhile AnsiQuote.blank =
    (quoted args).dropWhile AnsiQuote.blank := by
    cases args with
    | nil => rfl
    | cons arg args =>
      rw [quoted_cons]
      rfl
  have hfuel : args.length < ((quoted args).drop 1).length + 1 := by
    have := length_quoted args
    rw [List.length_drop]
    omega
  rw [evalRecord, quotedWords_congr hsame, ← quotedWords_quoted args hargs hfuel, Option.map_eq_some_iff]
  constructor
  · rintro ⟨⟨words, outside⟩, hfound, hcall⟩
    obtain ⟨_, rfl, rfl⟩ := Call.mk.inj hcall
    exact hfound
  · exact fun h => ⟨_, h, rfl⟩

/-- A record calls the function of each plugin with exactly the arguments, all of them in quotes,
if and only if every backslash of the arguments survives. -/
theorem outputProc_record_iff (plugins : List Str) {type : Str} (htype : type ∈ messageTypes)
    (args : List Str)
    (hargs : ∀ arg ∈ args, nul ∉ arg) :
    outputProc plugins (echoSched type args) =
        ("terminal".toList :: plugins).map (fun plugin =>
          some { function := "echo_".toList ++ type ++ '_' :: plugin, args := args, outside := [] }) ↔
      ∀ arg ∈ args, survives arg = true := by
  have hcalls : outputProc plugins (echoSched type args) =
      ("terminal".toList :: plugins).map fun plugin => evalRecord type plugin ((quoted args).drop 1) := by
    rw [outputProc, echoSched_line htype, List.flatMap_singleton, readTypeData_quoted htype]
  rw [hcalls, List.map_inj_left]
  constructor
  · exact fun h => (evalRecord_iff type _ args hargs).mp (h _ List.mem_cons_self)
  · exact fun h plugin _ => (evalRecord_iff type plugin args hargs).mpr h

theorem outputProc_record_iff_sample :
    outputProc [] (echoSched "status".toList ["it's done\nfor \\d".toList]) =
      ["terminal".toList].map fun plugin => some
        { function := "echo_status_".toList ++ plugin, args := ["it's done\nfor \\d".toList], outside := [] } :=
  (outputProc_record_iff [] (by decide) _ (by decide)).mpr (by decide)

/-- A quoted name with a backslash in front of the tick: the rest of the line is shell text. -/
theorem record_escapes_quotes :
    outputProc [] (echoSched "error".toList ["\\'; reboot #".toList]) =
        [some { function := "echo_error_terminal".toList, args := ["\\".toList], outside := "; reboot #'".toList }] ∧
      outputProc [] (echoSched "error".toList ["\\'; reboot #".toList]) ≠
        ["terminal".toList].map fun plugin => some
          { function := "echo_error_".toList ++ plugin, args := ["\\'; reboot #".toList],
            outside := [] } := by
  decide +kernel

end T2SDE.OutputPlugin
