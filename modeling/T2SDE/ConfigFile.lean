import Mathlib.Logic.Function.Basic
import T2SDE.Lib.Text

namespace T2SDE.Config

open Text

/-- The shell variables; one that is not set reads as empty. -/
abbrev Env := Str → Str

/-- `${v//\'/\'\\\'\'}`, between single quotes -/
def quote (v : Str) : Str := v.flatMap fun c => if c = '\'' then "'\\''".toList else [c]

def exportWord : Str := "export ".toList

/-- The line that `const` and `set_data` append to the config file. -/
def exportLine (name value : Str) : Str := exportWord ++ (name ++ '=' :: '\'' :: (quote value ++ ['\'']))

def natural (s : Str) : Option Int :=
  if s ≠ [] ∧ s.all Char.isDigit then some (Nat.ofDigitChars 10 s 0 : Nat) else none

/-- An unquoted variable as `-eq` reads it: one word that is a number. -/
def number (s : Str) : Option Int :=
  match tokens (fun c => c == ' ' || c == '\t' || c == '\n') s with
  | ['-' :: digits] => (natural digits).map (-·)
  | ['+' :: digits] => natural digits
  | [digits] => natural digits
  | _ => none

/-- The state of a configuration cycle: the variables, the counter of the expert sections, the
config file written so far, and what `set_data` leaves for the menu. -/
structure Shell where
  env : Env
  expert : Int
  config : Str
  data : Str
  item : Str
  menumode : Nat

def Shell.writeConfig (s : Shell) (name value : Str) : Shell :=
  { s with config := s.config ++ (exportLine name value ++ ['\n']) }

def Shell.assign (s : Shell) (name value : Str) : Shell :=
  { s with env := Function.update s.env name value }

/-- `[ $SDECFG_EXPERT -eq 1 -o $expert -eq 0 ]`; an error of the test is false. -/
def Shell.shown (s : Shell) : Bool :=
  match number (s.env "SDECFG_EXPERT".toList) with
  | some n => n == 1 || s.expert == 0
  | none => false

/-- `${1#SDECFG_}` behind `SDECFGSET_` -/
def presetName (name : Str) : Str :=
  "SDECFGSET_".toList ++ if "SDECFG_".toList.isPrefixOf name then name.drop "SDECFG_".length else name

def const (name value : Str) (s : Shell) : Shell := (s.assign name value).writeConfig name value

/-- What `set_data` gives the variable: the preset, the current value, or the default, which the
shell expands once more unless the item is hidden. -/
def Shell.choose (s : Shell) (expand : Env → Str → Str) (name default : Str) : Str :=
  if s.env (presetName name) ≠ [] then s.env (presetName name)
  else if s.shown then if s.env name ≠ [] then s.env name else expand s.env default
  else default

def setData (expand : Env → Str → Str) (name default : Str) (s : Shell) : Shell :=
  let data := s.choose expand name default
  let menumode :=
    if s.env (presetName name) ≠ [] then if s.shown then 2 else 0
    else if s.shown then 1
    else 0
  { (s.assign name data) with data, menumode, item := name }.writeConfig name data

/-- `choice` with the values of its list: a default and a current value that are not in the list
are unset before. -/
def choice (expand : Env → Str → Str) (name default : Str) (values : List Str) (s : Shell) : Shell :=
  let defval := if default = [] ∨ default ∈ values then default else []
  let s := if s.env name ∈ values then s else s.assign name []
  setData expand name (if defval ≠ [] then defval else values.headD []) s

def text (expand : Env → Str → Str) (name default : Str) (s : Shell) : Shell := setData expand name default s

def bool (expand : Env → Str → Str) (name default : Str) (s : Shell) : Shell := setData expand name default s

/-- The counter is set from a variable that does not exist. -/
def expertBegin (s : Shell) : Shell := { s with expert := 1 }

def expertEnd (s : Shell) : Shell := { s with expert := -1 }

/-- A word of the shell from inside or outside single quotes on, up to the end of its line. -/
def word : Bool → Str → Str × Str
  | _, [] => ([], [])
  | true, c :: s => if c = '\'' then word false s else (c :: (word true s).1, (word true s).2)
  | false, ['\\'] => ([], [])
  | false, '\\' :: c :: s => (c :: (word false s).1, (word false s).2)
  | false, c :: s =>
    if c = '\n' then ([], s)
    else if c = '\'' then word true s
    else (c :: (word false s).1, (word false s).2)

/-- The assignments of the `export` lines of a config file, in order. -/
def exports : Nat → Str → List (Str × Str)
  | 0, _ => []
  | fuel + 1, s =>
    if s = [] then []
    else if exportWord.isPrefixOf s then
      let line := s.drop exportWord.length
      let value := word false ((line.dropWhile (· != '=')).drop 1)
      (line.takeWhile (· != '='), value.1) :: exports fuel value.2
    else exports fuel ((s.dropWhile (· != '\n')).drop 1)

/-- What sourcing the config file sets a variable to. -/
def sourced (config : Str) (name : Str) : Option Str :=
  (exports config.length config).foldl (fun value a => if a.1 = name then some a.2 else value) none

/-- `. config/$config/config` -/
def source (config : Str) (env : Env) : Env := fun name => (sourced config name).getD (env name)

/-- A name that can be assigned to. -/
def IsName (name : Str) : Prop := name ≠ [] ∧ ∀ c ∈ name, c.isAlphanum = true ∨ c = '_'

theorem IsName.no_equals {name : Str} (h : IsName name) : '=' ∉ name := by
  intro hmem
  rcases h.2 _ hmem with h | h
  · exact absurd h (by decide)
  · exact absurd h (by decide)

/-- The lines of some assignments. -/
def configText (as : List (Str × Str)) : Str := as.flatMap fun a => exportLine a.1 a.2 ++ ['\n']

theorem quote_cons (c : Char) (v : Str) :
    quote (c :: v) = (if c = '\'' then "'\\''".toList else [c]) ++ quote v := rfl

theorem word_quote (v rest : Str) :
    word true (quote v ++ '\'' :: rest) = (v ++ (word false rest).1, (word false rest).2) := by
  induction v with
  | nil => simp [quote, word]
  | cons c v ih =>
    rw [quote_cons]
    by_cases hc : c = '\''
    · subst hc
      show word true ('\'' :: '\\' :: '\'' :: '\'' :: (quote v ++ '\'' :: rest)) = _
      simp [word, ih]
    · rw [if_neg hc, List.singleton_append, List.cons_append, word, if_neg hc, ih]
      rfl

theorem exports_line {name : Str} (hname : '=' ∉ name) (value rest : Str) (fuel : Nat) :
    exports (fuel + 1) (exportLine name value ++ '\n' :: rest) = (name, value) :: exports fuel rest := by
  have htext : exportLine name value ++ '\n' :: rest =
      exportWord ++ (name ++ '=' :: '\'' :: (quote value ++ '\'' :: '\n' :: rest)) := by
    simp only [exportLine, List.append_assoc, List.cons_append, List.nil_append]
  have hname' : ∀ c ∈ name, (c != '=') = true := by
    intro c hc
    simpa using fun h : c = '=' => hname (h ▸ hc)
  have hword : word false ('\'' :: (quote value ++ '\'' :: '\n' :: rest)) = (value, rest) := by
    have hopen : word false ('\'' :: (quote value ++ '\'' :: '\n' :: rest)) =
        word true (quote value ++ '\'' :: '\n' :: rest) := by simp [word]
    rw [hopen, word_quote]
    simp [word]
  have hne : exportWord ++ (name ++ '=' :: '\'' :: (quote value ++ '\'' :: '\n' :: rest)) ≠ [] := by simp
  rw [htext, exports, if_neg hne, if_pos (List.isPrefixOf_iff_prefix.mpr (List.prefix_append _ _)),
    List.drop_left]
  dsimp only
  rw [List.takeWhile_append_of_pos hname', List.takeWhile_cons_of_neg (by decide), List.append_nil,
    List.dropWhile_append_of_pos hname', List.dropWhile_cons_of_neg (by decide), List.drop_one,
    List.tail_cons, hword]

/-- The lines are read back as the assignments they were written for. -/
theorem exports_configText {as : List (Str × Str)} (has : ∀ a ∈ as, '=' ∉ a.1) {fuel : Nat}
    (hfuel : as.length ≤ fuel) :
    exports fuel (configText as) = as := by
  induction as generalizing fuel with
  | nil =>
    cases fuel with
    | zero => rfl
    | succ fuel => rfl
  | cons a as ih =>
    obtain ⟨fuel, rfl⟩ : ∃ n, fuel = n + 1 := ⟨fuel - 1, by simp only [List.length_cons] at hfuel; omega⟩
    have htext : configText (a :: as) = exportLine a.1 a.2 ++ '\n' :: configText as := by simp [configText]
    rw [htext, exports_line (has a (by simp)), ih (fun b hb => has b (by simp [hb])) (by simpa using hfuel)]

theorem length_configText (as : List (Str × Str)) : as.length ≤ (configText as).length := by
  induction as with
  | nil => simp
  | cons a as ih =>
    have htext : configText (a :: as) = exportLine a.1 a.2 ++ '\n' :: configText as := by simp [configText]
    rw [htext]
    simp only [List.length_cons, List.length_append]
    omega

/-- The last assignment of a name. -/
def lastValue (as : List (Str × Str)) (name : Str) : Option Str :=
  as.foldl (fun value a => if a.1 = name then some a.2 else value) none

theorem sourced_configText {as : List (Str × Str)} (has : ∀ a ∈ as, '=' ∉ a.1) :
    sourced (configText as) = lastValue as := by
  funext name
  rw [sourced, exports_configText has (length_configText as)]
  rfl

theorem lastValue_concat (as : List (Str × Str)) (a : Str × Str) (name : Str) :
    lastValue (as ++ [a]) name = if a.1 = name then some a.2 else lastValue as name := by
  rw [lastValue, List.foldl_append]
  rfl

theorem configText_concat (as : List (Str × Str)) (a : Str × Str) :
    configText (as ++ [a]) = configText as ++ (exportLine a.1 a.2 ++ ['\n']) := by
  simp [configText]

end T2SDE.Config
