import T2SDE.ConfigCycle
import T2SDE.Lib.ShellWord

namespace T2SDE.Config

open Text

instance (name : Str) : Decidable (IsName name) :=
  inferInstanceAs (Decidable (name ≠ [] ∧ ∀ c ∈ name, c.isAlphanum = true ∨ c = '_'))

/-- A name that the shell takes for a variable. -/
def IsVariable (name : Str) : Prop := IsName name ∧ (name.headD '_').isDigit = false

instance (name : Str) : Decidable (IsVariable name) :=
  inferInstanceAs (Decidable (IsName name ∧ (name.headD '_').isDigit = false))

/-- What a command assigns if it is `export NAME=value`. -/
def exported : List Str → Option (Str × Str)
  | [command, assignment] =>
    if command = "export".toList ∧ '=' ∈ assignment ∧ IsVariable (assignment.takeWhile (· != '=')) then
      some (assignment.takeWhile (· != '='), (assignment.dropWhile (· != '=')).drop 1)
    else none
  | _ => none

/-- The variables after the `export` commands of a text; none where it has anything else. -/
def sourceText (text : Str) (env : Env) : Option Env :=
  (ShellWord.commands (text.length + 1) text).bind fun cs =>
    (cs.mapM exported).map fun as => as.foldl (fun env a => Function.update env a.1 a.2) env

/-- A call that writes to the config file. -/
inductive Write where
  | const (name value : Str)
  | setData (name default : Str)

def Write.name : Write → Str
  | .const name _ => name
  | .setData name _ => name

section Sourced

variable (expand : Env → Str → Str)

def Write.run (s : Shell) : Write → Shell
  | .const name value => Config.const name value s
  | .setData name default => Config.setData expand name default s

def writeAll (ws : List Write) (s : Shell) : Shell := ws.foldl (Write.run expand) s

/-- What the calls give their variables, in order. -/
def written : List Write → Shell → List (Str × Str)
  | [], _ => []
  | w :: ws, s => (w.name, (w.run expand s).env w.name) :: written ws (w.run expand s)

/-- What is in the config file of the second state behind that of the first. -/
def appended (s t : Shell) : Str := t.config.drop s.config.length

variable {expand} {name value default : Str} {env : Env} {as : List (Str × Str)}

theorem exportLine_eq (name value s : Str) :
    exportLine name value ++ '\n' :: s =
      "export".toList ++ ' ' :: ((name ++ ['=']) ++ '\'' ::
      (ShellWord.quote value ++ '\'' :: '\n' :: s)) := by
  have hword : exportWord = "export".toList ++ [' '] := by decide
  simp only [exportLine, hword, List.append_assoc, List.cons_append, List.nil_append]
  rfl

theorem IsVariable.plain (h : IsVariable name) : (name ++ ['=']).all ShellWord.plain = true := by
  rw [List.all_append, Bool.and_eq_true]
  refine ⟨List.all_eq_true.mpr fun c hc => ShellWord.plain_of_not_mem fun hmem => ?_, by decide⟩
  have hname : c.isAlphanum = true ∨ c = '_' := h.1.2 c hc
  have hnone : ((' ' :: '\t' :: '\n' :: '\'' :: '\\' :: ShellWord.special).all fun c =>
    !(c.isAlphanum || c == '_')) = true := rfl
  have hother := List.all_eq_true.mp hnone c hmem
  rcases hname with hname | rfl
  · simp [hname] at hother
  · cases hother

theorem IsVariable.head (h : IsVariable name) (s : Str) : (name ++ s).head? ≠ some '#' := by
  obtain ⟨c, v, rfl⟩ := List.exists_cons_of_ne_nil h.1.1
  intro heq
  obtain rfl : c = '#' := Option.some.inj heq
  rcases h.1.2 '#' (by simp) with hc | hc
  · exact absurd hc (by decide)
  · exact absurd hc (by decide)

theorem words_exportLine (h : IsVariable name) (fuel : Nat) (value s : Str) :
    ShellWord.words (fuel + 3) (exportLine name value ++ '\n' :: s) =
    some (["export".toList, name ++ '=' :: value], s) := by
  have hassign :
    ShellWord.word false ((name ++ ['=']) ++ '\'' :: (ShellWord.quote value ++ '\'' :: '\n' :: s)) =
      some (name ++ '=' :: value, '\n' :: s) := by
    rw [ShellWord.word_quoted h.plain value (by decide), List.append_assoc]
    rfl
  rw [exportLine_eq, ShellWord.words_plain_blank (by decide) (by decide) (by decide),
    ShellWord.words_plain h.plain (by simp) (h.head _) hassign, ShellWord.words_newline]
  rfl

theorem command_exportLine (h : IsVariable name) (fuel : Nat) (value s : Str) :
    ShellWord.command (fuel + 1) (exportLine name value ++ '\n' :: s) =
      some (["export".toList, name ++ '=' :: value], s) := by
  obtain ⟨n, hn⟩ : ∃ n, (exportLine name value ++ '\n' :: s).length + 1 = n + 3 := by
    refine ⟨(exportLine name value ++ '\n' :: s).length - 2, ?_⟩
    rw [exportLine_eq, List.length_append, List.length_cons]
    have : "export".toList.length = 6 := by decide
    omega
  have hne : exportLine name value ++ '\n' :: s ≠ [] := by simp
  rw [ShellWord.command, if_neg hne, hn, words_exportLine h]
  rfl

/-- The lines of some assignments are read as their commands. -/
theorem commands_configText (has : ∀ a ∈ as, IsVariable a.1) {fuel : Nat} (hfuel : as.length < fuel) :
    ShellWord.commands fuel (configText as) = some (as.map fun a =>
    ["export".toList, a.1 ++ '=' :: a.2]) := by
  induction as generalizing fuel with
  | nil =>
    obtain ⟨fuel, rfl⟩ : ∃ n, fuel = n + 1 := ⟨fuel - 1, by omega⟩
    rfl
  | cons a as ih =>
    obtain ⟨fuel, rfl⟩ : ∃ n, fuel = n + 1 := ⟨fuel - 1, by omega⟩
    have htext : configText (a :: as) = exportLine a.1 a.2 ++ '\n' :: configText as := by simp [configText]
    have hrest := ih (fun b hb => has b (List.mem_cons_of_mem a hb)) (by simpa using hfuel)
    rw [htext, ShellWord.commands, command_exportLine (has a List.mem_cons_self)]
    simp [hrest]

theorem exported_assignment (h : IsVariable name) (value : Str) :
    exported ["export".toList, name ++ '=' :: value] = some (name, value) := by
  have hname : ∀ c ∈ name, (c != '=') = true := fun c hc => by
    simpa using fun heq : c = '=' => h.1.no_equals (heq ▸ hc)
  have htake : (name ++ '=' :: value).takeWhile (· != '=') = name := by
    rw [List.takeWhile_append_of_pos hname, List.takeWhile_cons_of_neg (by decide), List.append_nil]
  have hdrop : (name ++ '=' :: value).dropWhile (· != '=') = '=' :: value := by
    rw [List.dropWhile_append_of_pos hname, List.dropWhile_cons_of_neg (by decide)]
  rw [exported, htake, hdrop, if_pos ⟨rfl, by simp, h⟩]
  rfl

theorem mapM_exported (has : ∀ a ∈ as, IsVariable a.1) :
    (as.map fun a => ["export".toList, a.1 ++ '=' :: a.2]).mapM exported = some as := by
  induction as with
  | nil => rfl
  | cons a as ih =>
    rw [List.map_cons, List.mapM_cons, exported_assignment (has a List.mem_cons_self),
      ih fun b hb => has b (List.mem_cons_of_mem a hb)]
    rfl

theorem sourceText_configText (has : ∀ a ∈ as, IsVariable a.1) (env : Env) :
    sourceText (configText as) env = some (as.foldl (fun env a => Function.update env a.1 a.2) env) := by
  have hfuel : as.length < (configText as).length + 1 := Nat.lt_succ_of_le (length_configText as)
  rw [sourceText, commands_configText has hfuel, Option.bind_some, mapM_exported has]
  rfl

theorem foldl_update (as : List (Str × Str)) (env : Env) (name : Str) :
    as.foldl (fun env a => Function.update env a.1 a.2) env name = (lastValue as name).getD (env name) := by
  induction as using List.reverseRecOn with
  | nil => rfl
  | append_singleton as a ih =>
    rw [List.foldl_append, List.foldl_cons, List.foldl_nil, lastValue_concat]
    by_cases h : a.1 = name
    · rw [if_pos h, ← h, Function.update_self]
      rfl
    · rw [if_neg h, Function.update_of_ne (Ne.symm h), ih]

theorem writeAll_config (ws : List Write) (s : Shell) :
    (writeAll expand ws s).config = s.config ++ configText (written expand ws s) := by
  induction ws generalizing s with
  | nil => simp [writeAll, written, configText]
  | cons w ws ih =>
    have hstep : (w.run expand s).config = s.config ++
      (exportLine w.name ((w.run expand s).env w.name) ++ ['\n']) := by
      cases w with
      | const name value => simp [Write.run, Write.name, const, Shell.writeConfig, Shell.assign]
      | setData name default => simp [Write.run, Write.name, setData, Shell.writeConfig, Shell.assign]
    calc (writeAll expand (w :: ws) s).config
        = (w.run expand s).config ++ configText (written expand ws (w.run expand s)) := ih _
      _ = s.config ++ ((exportLine w.name ((w.run expand s).env w.name) ++ ['\n']) ++
            configText (written expand ws (w.run expand s))) := by rw [hstep, List.append_assoc]

theorem written_names (ws : List Write) (s : Shell) : ∀ a ∈ written expand ws s, ∃ w ∈ ws, a.1 = w.name := by
  induction ws generalizing s with
  | nil => exact fun a ha => absurd ha (by simp [written])
  | cons w ws ih =>
    intro a ha
    rcases List.mem_cons.mp ha with rfl | ha
    · exact ⟨w, List.mem_cons_self, rfl⟩
    · obtain ⟨v, hv, hname⟩ := ih _ a ha
      exact ⟨v, List.mem_cons_of_mem w hv, hname⟩

/-- The text that a sequence of calls appends, as the shell reads it. -/
theorem sourceText_writeAll {ws : List Write} (hws : ∀ w ∈ ws, IsVariable w.name) (s : Shell) (env : Env) :
    sourceText (appended s (writeAll expand ws s)) env =
      some ((written expand ws s).foldl (fun env a => Function.update env a.1 a.2) env) := by
  have hnames : ∀ a ∈ written expand ws s, IsVariable a.1 := by
    intro a ha
    obtain ⟨w, hw, hname⟩ := written_names ws s a ha
    exact hname ▸ hws w hw
  rw [appended, writeAll_config, List.drop_left, sourceText_configText hnames]

theorem sourceText_write {w : Write} (hw : IsVariable w.name) (s : Shell) (env : Env) :
    sourceText (appended s (w.run expand s)) env =
    some (Function.update env w.name ((w.run expand s).env w.name)) := by
  have hws : ∀ v ∈ [w], IsVariable v.name := fun v hv => by rwa [List.mem_singleton.mp hv]
  exact sourceText_writeAll hws s env

end Sourced

/-- The line of `const` or `set_data` gives the variable exactly the value that the call gave it,
and what a sequence of calls appends gives each variable its last value. -/
theorem written_sourced (expand : Env → Str → Str) {name : Str} (hname : IsVariable name) (s : Shell)
    (env : Env) :
    (∀ value, sourceText (appended s (const name value s)) env = some (Function.update env name value)) ∧
      (∀ default, sourceText (appended s (setData expand name default s)) env =
        some (Function.update env name (setData expand name default s).data)) ∧
      ∀ ws, (∀ w ∈ ws, IsVariable w.name) → ∃ env',
      sourceText (appended s (writeAll expand ws s)) env = some env' ∧
        ∀ name, env' name = (lastValue (written expand ws s) name).getD (env name) := by
  refine ⟨fun value => ?_, fun default => ?_, fun ws hws =>
    ⟨_, sourceText_writeAll hws s env, foldl_update _ env⟩⟩
  · have hline : sourceText (appended s (const name value s)) env =
        some (Function.update env name ((const name value s).env name)) :=
      @sourceText_write expand (.const name value) hname s env
    have hvalue : (const name value s).env name = value := Function.update_self ..
    rwa [hvalue] at hline
  · exact @sourceText_write expand (.setData name default) hname s env |>.trans
      (congrArg (fun value => some (Function.update env name value)) (Function.update_self ..))

theorem isVariable_of_all {name : Str} (hne : name ≠ [])
    (hall : (name.all fun c => c.isAlphanum || c == '_') = true)
    (hhead : (name.headD '_').isDigit = false) : IsVariable name :=
  ⟨⟨hne, fun c hc => by simpa using List.all_eq_true.mp hall c hc⟩, hhead⟩

theorem prompt_variable : IsVariable "SDECFG_PROMPT".toList := isVariable_of_all (by decide) rfl rfl

/-- A path with blanks and quotes, written twice. -/
def sampleWrites : List Write := [
  .const "SDECFG_PROMPT".toList "a".toList,
  .const "SDECFG_PROMPT".toList "it's \\ $HOME\n".toList]

theorem sampleWrites_names : ∀ w ∈ sampleWrites, IsVariable w.name := by
  intro w hw
  have hname : w.name = "SDECFG_PROMPT".toList := by
    revert w
    decide
  exact hname ▸ prompt_variable

theorem written_sourced_prompt :
    (∀ value, sourceText (appended (start fun _ =>
    []) (const "SDECFG_PROMPT".toList value (start fun _ => []))) (fun _ => []) =
        some (Function.update (fun _ => []) "SDECFG_PROMPT".toList value)) ∧
      ∃ env', sourceText (appended (start fun _ =>
      []) (writeAll (fun _ text => text) sampleWrites (start fun _ => [])))
        (fun _ => []) = some env' ∧ env' "SDECFG_PROMPT".toList = "it's \\ $HOME\n".toList := by
  obtain ⟨hconst, -, hall⟩ :=
    written_sourced (fun _ text => text) prompt_variable (start fun _ => []) fun _ => []
  obtain ⟨env', henv, hvalues⟩ := hall sampleWrites sampleWrites_names
  exact ⟨hconst, env', henv, (hvalues _).trans (by decide)⟩

end T2SDE.Config
