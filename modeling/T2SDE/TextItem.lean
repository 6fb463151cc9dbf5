import T2SDE.ConfigSource
import T2SDE.Inputbox
import T2SDE.Lib.Echo

namespace T2SDE.Config

open Text

section Item

variable (expand : Env → Str → Str)

/-- The line that `text` writes to `config.data` for an item that is shown in the current menu. -/
def recordText (title name data : Str) : Str :=
  Echo.echo [name ++ "\\ttext_action '".toList ++ title ++ "' '".toList ++ name ++ ['\''],
    '\'' :: (quote data ++ ['\''])]

/-- `text`, with what it appends to `config.data`. -/
def textData (title name default : Str) (displayed : Bool) (s : Shell) : Str :=
  let s := setData expand name default s
  if s.menumode = 1 ∧ displayed = true then recordText title name s.data else []

end Item

/-- `grep "^$item<tab>" | cut -f2-`, with the newlines at the end left out -/
def extracted (item data : Str) : Str :=
  let found := (fileLines data).filter fun line => (item ++ ['\t']).isPrefixOf line
  substitution (found.flatMap fun line => line.drop (item.length + 1) ++ ['\n'])

/-- What `Config` appends to the config file for a command. -/
def executed (command : Str) : Str := Echo.echo ["\\n# Execute this config command:\\n".toList ++ command]

/-- The arguments of the first command of a text, if that is `text_action`. -/
def opened (text : Str) : Option (Str × Str × Str) :=
  match ShellWord.command (text.length + 1) text with
  | some ([action, title, name, value], _) =>
    if action = "text_action".toList then some (title, name, value) else none
  | _ => none

/-- `text_action` with what the user does in the dialog. -/
def textAction (name value : Str) (user : Str → Answer) (env : Env) : Option Env :=
  (jInputbox value user).map fun result =>
    if result.1 = 0 ∨ result.1 = 1 then Function.update env name (substitution result.2) else env

def unlines (lines : List Str) : Str := lines.flatMap fun line => line ++ ['\n']

/-- Lines that other items have recorded. -/
def Foreign (item : Str) (lines : List Str) : Prop := ∀ line ∈ lines, '\n' ∉ line ∧ ¬(item ++ ['\t']) <+: line

/-- In the next cycle the command opens the dialog with the value, and if the dialog is confirmed as
it is, then the variable has the value. -/
def RoundTrip (title name value data : Str) : Prop :=
  ∀ before after, Foreign name before → Foreign name after →
    opened (executed (extracted name (unlines before ++ (data ++ unlines after)))) =
      some (title, name, value) ∧
    ∀ env, ∃ env', textAction name value .ok env = some env' ∧ env' name = value

/-- A title as it can stand between single quotes. -/
def PlainTitle (title : Str) : Prop := '\'' ∉ title ∧ '\\' ∉ title ∧ '\n' ∉ title

section Trip

variable {title name value s : Str}

def action : Str := "text_action".toList

def comment : Str := "# Execute this config command:".toList

/-- The command of an item up to the quoted value. -/
def commandHead (title name : Str) : Str :=
  action ++ ' ' :: '\'' :: (title ++ '\'' :: ' ' :: '\'' :: (name ++ ['\'', ' ']))

theorem IsVariable.not_mem {c : Char} (h : IsVariable name) (hc : c.isAlphanum = false ∧ c ≠ '_') :
    c ∉ name := by
  intro hmem
  rcases h.1.2 c hmem with hchar | hchar
  · exact absurd hchar (by simp [hc.1])
  · exact hc.2 hchar

theorem commandHead_append (title name s : Str) :
    commandHead title name ++ s = action ++ ' ' :: '\'' ::
    (title ++ '\'' :: ' ' :: '\'' :: (name ++ '\'' :: ' ' :: s)) := by
  simp [commandHead]

theorem not_mem_commandHead {c : Char} (haction : c ∉ action) (hc : c ≠ ' ' ∧ c ≠ '\'') (htitle : c ∉ title)
    (hname : c ∉ name) : c ∉ commandHead title name := by
  simp [commandHead, haction, hc, htitle, hname]

theorem recordText_eq (hname : IsVariable name) (htitle : PlainTitle title) (data : Str) :
    recordText title name data = name ++ '\t' ::
    (commandHead title name ++ Echo.echo ['\'' :: (quote data ++ ['\''])]) := by
  have hback : '\\' ∉ name := hname.not_mem (by decide)
  have hrest : '\\' ∉ action ++ ' ' :: '\'' :: (title ++ '\'' :: ' ' :: '\'' :: (name ++ ['\''])) := by
    have haction : '\\' ∉ action := by decide
    simp [haction, htitle.2.1, hback]
  have htext : name ++ "\\ttext_action '".toList ++ title ++ "' '".toList ++ name ++ ['\''] =
      name ++ '\\' :: 't' :: (action ++ ' ' :: '\'' ::
        (title ++ '\'' :: ' ' :: '\'' :: (name ++ ['\'']))) := by
    simp only [List.append_assoc]
    rfl
  have hargument : Echo.interpreted (name ++ '\\' :: 't' ::
      (action ++ ' ' :: '\'' :: (title ++ '\'' :: ' ' :: '\'' :: (name ++ ['\''])))) =
      (name ++ '\t' :: (action ++ ' ' :: '\'' :: (title ++ '\'' :: ' ' :: '\'' :: (name ++ ['\'']))),
        false) := by
    rw [Echo.interpreted_append hback, Echo.interpreted_letter (d := '\t') (by decide) rfl,
      Echo.interpreted_inert (Echo.inert_plain hrest)]
  rw [recordText, htext, Echo.echo, hargument, commandHead_append]
  simp

/-- The command that is recorded, behind its head. -/
theorem executed_command (hhead : '\\' ∉ commandHead title name) (s : Str) :
    executed (commandHead title name ++ s) = '\n' ::
    (comment ++ '\n' :: (commandHead title name ++ Echo.echo [s])) := by
  have hcomment : '\\' ∉ comment := by decide
  have htext : "\\n# Execute this config command:\\n".toList ++ (commandHead title name ++ s) =
      '\\' :: 'n' :: (comment ++ '\\' :: 'n' :: (commandHead title name ++ s)) := rfl
  have hout : Echo.interpreted ('\\' :: 'n' :: (comment ++ '\\' :: 'n' :: (commandHead title name ++ s))) =
      ('\n' :: (comment ++ '\n' :: (commandHead title name ++ (Echo.interpreted s).1)),
        (Echo.interpreted s).2) := by
    rw [Echo.interpreted_letter (d := '\n') (by decide) rfl, Echo.interpreted_append hcomment,
      Echo.interpreted_letter (d := '\n') (by decide) rfl, Echo.interpreted_append hhead]
  rw [executed, htext, Echo.echo_single, hout, Echo.echo_single]
  simp

/-- The words of the command up to the value. -/
theorem words_commandHead (hname : IsVariable name) (htitle : PlainTitle title) (fuel : Nat) (s : Str) :
    ShellWord.words (fuel + 3) (commandHead title name ++ s) =
      (ShellWord.words fuel s).map fun rest => (action :: title :: name :: rest.1, rest.2) := by
  have hquoted : ∀ (n : Nat) (v t : Str), '\'' ∉ v →
    ShellWord.words (n + 1) ('\'' :: (v ++ '\'' :: ' ' :: t)) =
      (ShellWord.words n t).map fun rest => (v :: rest.1, rest.2) := by
    intro n v t hv
    have hwords : ShellWord.words (n + 1) ('\'' :: (ShellWord.quote v ++ '\'' :: ' ' :: t)) =
        (ShellWord.words n (' ' :: t)).map fun rest => (v :: rest.1, rest.2) :=
          ShellWord.words_quoted v (by decide) t
    rwa [ShellWord.quote_free hv, ShellWord.words_blank (s := t) (by decide)] at hwords
  rw [commandHead_append, ShellWord.words_plain_blank (by decide) (by decide) (by decide),
    hquoted _ title _ htitle.1,
    hquoted _ name _ (hname.not_mem (by decide)), Option.map_map, Option.map_map]
  rfl

/-- What is sourced starts `text_action` with the words behind the head of the command. -/
theorem command_executed (hname : IsVariable name) (htitle : PlainTitle title) (s : Str) :
    ∃ fuel, ShellWord.command ((executed (commandHead title name ++ s)).length +
    1) (executed (commandHead title name ++ s)) =
      (ShellWord.words (fuel + 2) (Echo.echo [s])).map fun rest =>
      (action :: title :: name :: rest.1, rest.2) := by
  have hhead : '\\' ∉ commandHead title name :=
    not_mem_commandHead (by decide) (by decide) htitle.2.1 (hname.not_mem (by decide))
  have hlen : ∃ n, (commandHead title name ++ Echo.echo [s]).length + 1 = n + 2 + 3 := by
    refine ⟨(commandHead title name ++ Echo.echo [s]).length - 4, ?_⟩
    simp only [commandHead, List.length_append, List.length_cons]
    omega
  obtain ⟨n, hn⟩ := hlen
  have hne : commandHead title name ++ Echo.echo [s] ≠ [] := by
    intro heq
    rw [heq] at hn
    exact absurd hn (by simp)
  have hcomment : ∀ t, comment ++ '\n' :: t = '#' :: (comment.tail ++ '\n' :: t) := fun _ => rfl
  refine ⟨n, ?_⟩
  rw [executed_command hhead]
  obtain ⟨k, hk⟩ : ∃ k, ('\n' :: (comment ++ '\n' :: (commandHead title name ++ Echo.echo [s]))).length +
    1 = k + 3 :=
    ⟨comment.length + (commandHead title name ++ Echo.echo [s]).length, by
      rw [List.length_cons, List.length_append, List.length_cons]
      omega⟩
  rw [hk, ShellWord.command_newline, hcomment, ShellWord.command_comment (by decide), ShellWord.command,
    if_neg hne, hn,
    words_commandHead hname htitle]
  cases ShellWord.words (n + 2) (Echo.echo [s]) with
  | none => rfl
  | some found => rfl

/-- What is opened when the value is the given text of `config.data`. -/
theorem opened_iff (hname : IsVariable name) (htitle : PlainTitle title) (value s : Str) :
    ∃ fuel, opened (executed (commandHead title name ++ s)) = some (title, name, value) ↔
      ∃ t, ShellWord.words (fuel + 2) (Echo.echo [s]) = some ([value], t) := by
  obtain ⟨fuel, hcommand⟩ := command_executed hname htitle s
  refine ⟨fuel, ?_⟩
  rw [opened, hcommand]
  cases ShellWord.words (fuel + 2) (Echo.echo [s]) with
  | none => simp
  | some found =>
    obtain ⟨ws, t⟩ := found
    rcases ws with _ | ⟨v, _ | ⟨w, ws⟩⟩
    · simp
    · have haction : action = "text_action".toList := rfl
      simp [haction]
    · simp

end Trip

section Extract

variable {item s : Str} {lines : List Str}

theorem fileLines_unlines (hlines : ∀ line ∈ lines, '\n' ∉ line) (s : Str) :
    fileLines (unlines lines ++ s) = lines ++ fileLines s := by
  induction lines with
  | nil => rfl
  | cons line lines ih =>
    have htext : unlines (line :: lines) ++ s = line ++ '\n' :: (unlines lines ++ s) := by simp [unlines]
    rw [htext, fileLines_line (hlines line List.mem_cons_self), ih fun l hl =>
      hlines l (List.mem_cons_of_mem line hl)]
    rfl

theorem Foreign.filter (h : Foreign item lines) :
    lines.filter (fun line => (item ++ ['\t']).isPrefixOf line) = [] := by
  refine List.filter_eq_nil_iff.mpr fun line hline hmatch => ?_
  exact (h line hline).2 (List.isPrefixOf_iff_prefix.mp hmatch)

theorem weight_fileLines (s : Str) : ((fileLines s).map ShellWord.weight).sum = ShellWord.weight s := by
  induction s with
  | nil => rfl
  | cons c s ih =>
    rw [fileLines, ShellWord.weight_head, ← ih]
    split
    next hc =>
      subst hc
      rfl
    next =>
      cases fileLines s with
      | nil => rfl
      | cons line lines =>
        rw [List.map_cons, List.sum_cons, List.map_cons, List.sum_cons, ShellWord.weight_head, Nat.add_assoc]

/-- The lines of a text behind some characters without a newline. -/
theorem fileLines_append {a : Str} (ha : '\n' ∉ a) (hne : a ≠ []) (s : Str) :
    ∃ line lines, fileLines (a ++ s) = (a ++ line) :: lines ∧
      ShellWord.weight line + (lines.map ShellWord.weight).sum = ShellWord.weight s := by
  induction a with
  | nil => exact absurd rfl hne
  | cons c a ih =>
    rw [List.mem_cons, not_or] at ha
    rw [List.cons_append, fileLines, if_neg (Ne.symm ha.1)]
    by_cases htail : a = []
    · subst htail
      have hsum := weight_fileLines s
      cases hs : fileLines s with
      | nil =>
        rw [hs] at hsum
        exact ⟨[], [], by simp [hs], hsum⟩
      | cons line lines =>
        rw [hs, List.map_cons, List.sum_cons] at hsum
        exact ⟨line, lines, by simp [hs], hsum⟩
    · obtain ⟨line, lines, heq, hsum⟩ := ih ha.2 htail
      exact ⟨line, lines, by rw [heq]; rfl, hsum⟩

theorem substitution_append {a : Str} (ha : '\n' ∉ a) (s : Str) :
    substitution (a ++ s) = a ++ substitution s := by
  induction s using List.reverseRecOn with
  | nil => rw [List.append_nil, substitution_free ha]; exact (List.append_nil a).symm
  | append_singleton s c ih =>
    rw [← List.append_assoc]
    by_cases hc : c = '\n'
    · subst hc
      rw [substitution, List.rdropWhile_concat_pos _ _ _ rfl, substitution,
        List.rdropWhile_concat_pos _ _ _ rfl]
      exact ih
    · rw [substitution, List.rdropWhile_concat_neg _ _ _ (by simpa using hc), substitution,
        List.rdropWhile_concat_neg _ _ _ (by simpa using hc), List.append_assoc]

theorem weight_substitution (s : Str) : ShellWord.weight (substitution s) ≤ ShellWord.weight s := by
  obtain ⟨t, ht⟩ := List.rdropWhile_prefix (· == '\n') s
  have hsum := congrArg ShellWord.weight ht
  rw [ShellWord.weight_append] at hsum
  exact (Nat.le_add_right _ _).trans_eq hsum

theorem drop_item (item s : Str) : (item ++ '\t' :: s).drop (item.length + 1) = s := by
  have htext : item ++ '\t' :: s = (item ++ ['\t']) ++ s := by simp
  rw [htext, List.drop_left' (by simp)]

theorem item_found (item s : Str) : (item ++ ['\t']).isPrefixOf (item ++ '\t' :: s) = true :=
  List.isPrefixOf_iff_prefix.mpr ⟨s, by simp⟩

/-- The command that is found for an item, with other lines around its own. -/
theorem extracted_line {before after : List Str} {line : Str} (hbefore : Foreign item before)
    (hafter : Foreign item after)
    (hitem : '\n' ∉ item) (hline : '\n' ∉ line) :
    extracted item (unlines before ++ (item ++ '\t' :: (line ++ '\n' :: unlines after))) = line := by
  have hwhole : '\n' ∉ item ++ '\t' :: line := List.not_mem_append hitem (by simp [hline])
  have htext : item ++ '\t' :: (line ++ '\n' :: unlines after) =
    (item ++ '\t' :: line) ++ '\n' :: (unlines after ++ []) := by
    simp
  have hlines : fileLines (unlines before ++ (item ++ '\t' :: (line ++ '\n' :: unlines after))) =
      before ++ (item ++ '\t' :: line) :: after := by
    rw [fileLines_unlines fun l hl => (hbefore l hl).1, htext, fileLines_line hwhole,
      fileLines_unlines fun l hl => (hafter l hl).1]
    simp [fileLines]
  have hend : substitution ['\n'] = [] := rfl
  rw [extracted, hlines, List.filter_append, hbefore.filter, List.nil_append,
    List.filter_cons_of_pos (item_found item line),
    hafter.filter, List.flatMap_singleton, drop_item, substitution_append hline, hend, List.append_nil]

theorem weight_found (p : Str → Bool) (n : Nat) (lines : List Str) :
    ShellWord.weight ((lines.filter p).flatMap fun line => line.drop n ++ ['\n']) ≤
    (lines.map ShellWord.weight).sum := by
  induction lines with
  | nil => exact Nat.le_refl _
  | cons line lines ih =>
    rw [List.map_cons, List.sum_cons, List.filter_cons]
    split
    next =>
      have hdrop : ShellWord.weight (line.drop n) ≤ ShellWord.weight line :=
        (List.drop_sublist n line).countP_le
      have hnewline : ShellWord.weight ['\n'] = 0 := rfl
      rw [List.flatMap_cons, ShellWord.weight_append, ShellWord.weight_append]
      omega
    next => exact ih.trans (Nat.le_add_left _ _)

/-- Without other lines nothing is added to what is found behind the head of the command. -/
theorem extracted_weight {head : Str} (hitem : '\n' ∉ item) (hhead : '\n' ∉ head) (s : Str) :
    ∃ t, extracted item (item ++ '\t' :: (head ++ s)) = head ++ t ∧
    ShellWord.weight t ≤ ShellWord.weight s := by
  have hstart : '\n' ∉ item ++ '\t' :: head := List.not_mem_append hitem (by simp [hhead])
  obtain ⟨line, lines, hlines, hsum⟩ := fileLines_append hstart (by simp) s
  have htext : item ++ '\t' :: (head ++ s) = (item ++ '\t' :: head) ++ s := by simp
  have hfirst : (item ++ '\t' :: head) ++ line = item ++ '\t' :: (head ++ line) := by simp
  rw [extracted, htext, hlines, hfirst, List.filter_cons_of_pos (item_found item (head ++ line)),
    List.flatMap_cons,
    drop_item, List.append_assoc, List.append_assoc, substitution_append hhead]
  refine ⟨_, rfl, (weight_substitution _).trans ?_⟩
  rw [ShellWord.weight_append, ← hsum]
  exact Nat.add_le_add_left (weight_found _ _ lines) _

end Extract

section Iff

variable {expand : Env → Str → Str} {title name default value : Str} {s : Shell}

/-- A value that comes through all of the steps. -/
def Clean (value : Str) : Prop := Echo.inert value = true ∧ '%' ∉ value ∧ value.length ≤ maxLen

theorem words_value (fuel : Nat) (value t : Str) :
    ShellWord.words (fuel + 2) ('\'' :: (quote value ++ '\'' :: '\n' :: t)) = some ([value], t) := by
  have hwords : ShellWord.words (fuel + 2) ('\'' :: (ShellWord.quote value ++ '\'' :: '\n' :: t)) =
      (ShellWord.words (fuel + 1) ('\n' :: t)).map fun rest => (value :: rest.1, rest.2) :=
    ShellWord.words_quoted value (by decide) t
  rw [ShellWord.words_newline] at hwords
  exact hwords

theorem newline_quote (h : '\n' ∉ value) : '\n' ∉ quote value := by
  intro hmem
  obtain ⟨c, hc, hin⟩ := List.mem_flatMap.mp hmem
  split at hin
  next => exact absurd hin (by decide)
  next => exact h (List.mem_singleton.mp hin ▸ hc)

theorem echo_quoted (h : Echo.inert value = true) :
    Echo.echo ['\'' :: (quote value ++ ['\''])] = '\'' :: (quote value ++ ['\'', '\n']) := by
  have hinert : Echo.inert ('\'' :: (quote value ++ ['\''])) = true := by
    show Echo.inert ('\'' :: (ShellWord.quote value ++ '\'' :: [])) = true
    rw [Echo.inert, Echo.inert_quote, h]
    rfl
  rw [Echo.echo_inert hinert]
  simp

theorem weight_quoted (hline : '\n' ∉ value) :
    ShellWord.weight ('\'' :: (quote value ++ ['\''])) = value.length := by
  have hquote : ShellWord.weight (quote value) = value.length := ShellWord.weight_quote hline
  have hone : ShellWord.weight ['\''] = 0 := rfl
  rw [ShellWord.weight_head, ShellWord.weight_append, hquote, hone]
  omega

/-- The dialog is opened with a value in which no escape is interpreted. -/
theorem opened_of_inert (hname : IsVariable name) (htitle : PlainTitle title) (hline : '\n' ∉ value)
    (h : Echo.inert value = true) {before after : List Str} (hbefore : Foreign name before)
    (hafter : Foreign name after) :
    opened (executed (extracted name (unlines before ++ (recordText title name value ++ unlines after)))) =
      some (title, name, value) := by
  have hhead : '\n' ∉ commandHead title name :=
    not_mem_commandHead (by decide) (by decide) htitle.2.2 (hname.not_mem (by decide))
  have hcommand : '\n' ∉ commandHead title name ++ '\'' :: (quote value ++ ['\'']) :=
    List.not_mem_append hhead (by simp [newline_quote hline])
  have htext : recordText title name value ++ unlines after =
      name ++ '\t' :: ((commandHead title name ++ '\'' :: (quote value ++ ['\''])) ++ '\n' ::
        unlines after) := by
    rw [recordText_eq hname htitle, echo_quoted h]
    simp
  obtain ⟨fuel, hiff⟩ := opened_iff hname htitle value ('\'' :: (quote value ++ ['\'']))
  rw [htext, extracted_line hbefore hafter (hname.not_mem (by decide)) hcommand]
  refine hiff.mpr ⟨[], ?_⟩
  rw [echo_quoted h]
  exact words_value fuel value []

/-- A value with an escape loses characters before it is read again. -/
theorem inert_of_opened (hname : IsVariable name) (htitle : PlainTitle title) (hline : '\n' ∉ value)
    (h : opened (executed (extracted name (recordText title name value))) = some (title, name, value)) :
    Echo.inert value = true := by
  by_contra hactive
  have hhead : '\n' ∉ commandHead title name :=
    not_mem_commandHead (by decide) (by decide) htitle.2.2 (hname.not_mem (by decide))
  have hquoted : Echo.inert ('\'' :: (quote value ++ ['\''])) = false := by
    show Echo.inert ('\'' :: (ShellWord.quote value ++ '\'' :: [])) = false
    rw [Echo.inert, Echo.inert_quote, Bool.eq_false_iff.mpr hactive]
    rfl
  have hlost := Echo.weight_interpreted_lt hquoted
  rw [weight_quoted hline] at hlost
  obtain ⟨t, hextracted, ht⟩ := extracted_weight (hname.not_mem (c := '\n') (by decide)) hhead
    (Echo.echo ['\'' :: (quote value ++ ['\''])])
  rw [Echo.weight_echo] at ht
  rw [recordText_eq hname htitle, hextracted] at h
  obtain ⟨fuel, hiff⟩ := opened_iff hname htitle value t
  obtain ⟨rest, hwords⟩ := hiff.mp h
  have hlen := ShellWord.length_first_word hline hwords
  have hecho := Echo.weight_interpreted t
  rw [Echo.weight_echo] at hlen
  omega

theorem textAction_iff (hline : '\n' ∉ value) (env : Env) :
    (∃ env', textAction name value .ok env = some env' ∧ env' name = value) ↔
    '%' ∉ value ∧ value.length ≤ maxLen := by
  rw [← fprintf_substitution hline]
  by_cases hlen : value.length ≤ maxLen
  · have hdialog : jInputbox value .ok = (fprintf value).map fun out => (0, out) := if_pos hlen
    rw [textAction, hdialog, and_iff_left hlen]
    cases fprintf value with
    | none => simp
    | some out => simp
  · have hdialog : jInputbox value .ok = none := if_neg hlen
    rw [textAction, hdialog]
    simp [hlen]

theorem RoundTrip.inert (hname : IsVariable name) (htitle : PlainTitle title) (hline : '\n' ∉ value)
    (h : RoundTrip title name value (recordText title name value)) : Echo.inert value = true := by
  have hnone : Foreign name [] := fun line hmem => absurd hmem (by simp)
  have hopened := (h [] [] hnone hnone).1
  exact inert_of_opened hname htitle hline (by simpa [unlines] using hopened)

theorem textData_visible (title : Str) (h : (setData expand name default s).menumode = 1) :
    textData expand title name default true s = recordText title name (setData expand name default s).data :=
  if_pos ⟨h, rfl⟩

end Iff

/-- A visible text item comes back as it is exactly if `echo -e` interprets none of its escapes, it
has no `%`, and it fits into the buffer of the dialog. -/
theorem text_roundTrip_iff (expand : Env → Str → Str) {title name : Str} (hname : IsVariable name)
    (htitle : PlainTitle title)
    (default : Str) (s : Shell) (hvisible : (setData expand name default s).menumode = 1)
    (hline : '\n' ∉ (setData expand name default s).data) :
    RoundTrip title name (setData expand name default s).data (textData expand title name default true s) ↔
      Clean (setData expand name default s).data := by
  rw [textData_visible title hvisible]
  constructor
  · intro h
    have hnone : Foreign name [] := fun line hmem => absurd hmem (by simp)
    exact ⟨h.inert hname htitle hline, (textAction_iff hline fun _ => []).mp
      ((h [] [] hnone hnone).2 fun _ => [])⟩
  · intro h before after hbefore hafter
    exact ⟨opened_of_inert hname htitle hline h.1 hbefore hafter, fun env =>
      (textAction_iff hline env).mpr h.2⟩

def flagsTitle : Str := "Additional compiler flags".toList

def flagsName : Str := "SDECFG_C_FLAGS".toList

def sampleEnv : Env := fun name => if name = expertName then "0".toList else []

def sampleFlags (value : Str) : Shell := setData (fun _ text => text) flagsName value (start sampleEnv)

theorem flagsName_variable : IsVariable flagsName := isVariable_of_all (by decide) rfl rfl

theorem flagsTitle_plain : PlainTitle flagsTitle := ⟨by decide, by decide, by decide⟩

def quotedFlags : Str := "-DPATH='a b' -DUSER=$USER\\".toList

theorem quotedFlags_line : '\n' ∉ (sampleFlags quotedFlags).data := by decide

theorem text_roundTrip_flags :
    RoundTrip flagsTitle flagsName (sampleFlags quotedFlags).data
      (textData (fun _ text => text) flagsTitle flagsName quotedFlags true (start sampleEnv)) ↔
      Clean (sampleFlags quotedFlags).data :=
  text_roundTrip_iff (fun _ text => text) flagsName_variable flagsTitle_plain quotedFlags
    (start sampleEnv) rfl
    quotedFlags_line

/-- The flags `-DEND=\n` reach the dialog with a newline in them. -/
theorem text_roundTrip_escape : ¬∀ (expand : Env → Str → Str) (title name default : Str) (s : Shell),
    IsVariable name →
    PlainTitle title → (setData expand name default s).menumode = 1 →
    '\n' ∉ (setData expand name default s).data →
    RoundTrip title name (setData expand name default s).data (textData expand title name default true s) := by
  intro h
  have hline : '\n' ∉ (sampleFlags "-DEND=\\n".toList).data := by decide
  have htrip :=
    h (fun _ text => text) flagsTitle flagsName "-DEND=\\n".toList (start sampleEnv) flagsName_variable
    flagsTitle_plain rfl hline
  rw [textData_visible flagsTitle rfl] at htrip
  exact absurd (htrip.inert flagsName_variable flagsTitle_plain hline) (by decide)

end T2SDE.Config
