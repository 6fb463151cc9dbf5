import T2SDE.Lib.LuaMatch
import T2SDE.ConfigFile

namespace T2SDE.Config

open Text Lua

def configMapping : List (Str × Str) := [
  ("SDECFG_ARCH".toList, "ARCH".toList), ("SDECFG_CROSSBUILD".toList, "CROSSBUILD".toList),
  ("SDECFG_SHORTID".toList, "SHORTID".toList), ("SDECFG_ID".toList, "ID".toList)]

/-- The table of `sam.config`: the variables of the file and those with a name of their own. -/
structure SamTable where
  config : Str → Option Str
  mapped : Str → Option Str

def configPattern : Str := "export ([^=]+)=['\"]?([^'\"=]+)['\"]?".toList

def samLine (retval : SamTable) (line : Str) : SamTable :=
  match strMatch line configPattern with
  | some [name, value] =>
    { config := Function.update retval.config name (some value)
      mapped := match configMapping.lookup name with
        | some key => Function.update retval.mapped key (some value)
        | none => retval.mapped }
  | _ => retval

/-- `sam.config` on the text of a config file -/
def samConfig (config : Str) : SamTable :=
  (fileLines config).foldl samLine { config := fun _ => none, mapped := fun _ => none }

/-- A value that the pattern takes as a whole. -/
def Plain (value : Str) : Prop := value ≠ [] ∧ ∀ c ∈ value, c ≠ '\'' ∧ c ≠ '"' ∧ c ≠ '='

inductive Call
  | const (name value : Str)
  | setData (name default : Str)

def Call.name : Call → Str
  | .const name _ => name
  | .setData name _ => name

/-- The value that the call writes in a state. -/
def Call.written (expand : Env → Str → Str) (s : Shell) : Call → Str
  | .const _ value => value
  | .setData name default => s.choose expand name default

def Call.run (expand : Env → Str → Str) (s : Shell) : Call → Shell
  | .const name value => Config.const name value s
  | .setData name default => Config.setData expand name default s

section Pattern

def nameClass : CharClass := .set true [.char '=']
def quoteClass : CharClass := .set false [.char '\'', .char '"']
def valueClass : CharClass := .set true [.char '\'', .char '"', .char '=']

def valueItems : List Lua.Item := [.single (.char '=') .one, .single quoteClass .optional, .openCapture,
  .single valueClass .plus, .closeCapture, .single quoteClass .optional]

def configItems : List Lua.Item := exportWord.map (fun c => .single (.char c) .one) ++
  .openCapture :: .single nameClass .plus :: .closeCapture :: valueItems

theorem compile_configPattern : compile configPattern = some ⟨false, configItems⟩ := by decide +kernel

theorem doMatch_literal (w : Str) (items : List Lua.Item) (s : Str) (cs : List Capture) :
    doMatch (w.map (fun c => .single (.char c) .one) ++ items) (w ++ s) cs = doMatch items s cs := by
  induction w with
  | nil => rfl
  | cons c w ih =>
    have hc : (CharClass.char c).admits c = true := beq_self_eq_true c
    rw [List.map_cons, List.cons_append, List.cons_append, doMatch, if_pos hc, ih]

theorem doMatch_literal_cases {w : Str} {items : List Lua.Item} {s : Str} {cs : List Capture}
    {r : Str × List Capture}
    (h : doMatch (w.map (fun c => .single (.char c) .one) ++ items) s cs = some r) :
    ∃ t, doMatch items t cs = some r := by
  induction w generalizing s with
  | nil => exact ⟨s, h⟩
  | cons c w ih =>
    obtain ⟨_, t, _, _, ht⟩ := doMatch_one_cases h
    exact ih ht

theorem valueClass_admits (c : Char) : valueClass.admits c = true ↔ c ≠ '\'' ∧ c ≠ '"' ∧ c ≠ '=' := by
  simp only [valueClass, CharClass.admits, SetElem.admits, List.any_cons, List.any_nil, Bool.or_false,
    bne_iff_ne,
    ne_eq, Bool.or_eq_true, beq_iff_eq, not_or, @eq_comm _ c]

theorem nameClass_admits (c : Char) : nameClass.admits c = true ↔ c ≠ '=' := by
  simp only [nameClass, CharClass.admits, SetElem.admits, List.any_cons, List.any_nil, Bool.or_false,
    bne_iff_ne,
    ne_eq, beq_iff_eq, @eq_comm _ c]

/-- Whatever the pattern finds in a line, its value is plain. -/
theorem plain_of_match {line name value : Str} (h : strMatch line configPattern = some [name, value]) :
    Plain value := by
  rw [strMatch, compile_configPattern, Option.bind_some] at h
  obtain ⟨found, hfound, htexts⟩ := Option.map_eq_some_iff.mp h
  rw [search, if_neg (by simp)] at hfound
  obtain ⟨_, hmatch⟩ := searchFrom_cases hfound
  obtain ⟨_, hmatch⟩ := doMatch_literal_cases hmatch
  obtain ⟨n, _, _, _, _, hmatch⟩ := doMatch_plusCapture_cases hmatch
  obtain ⟨_, _, _, _, hmatch⟩ := doMatch_one_cases hmatch
  obtain ⟨_, hmatch⟩ := doMatch_optional_cases hmatch
  obtain ⟨w, _, _, hne, hw, hmatch⟩ := doMatch_plusCapture_cases hmatch
  obtain ⟨_, hmatch⟩ := doMatch_optional_cases hmatch
  have hcaptures : found.captures = [.text w, .text n] := (Prod.mk.inj (Option.some.inj hmatch)).2.symm
  rw [Found.texts, hcaptures] at htexts
  have hvalue : w = value := (List.cons.inj (List.cons.inj htexts).2).1
  rw [← hvalue]
  exact ⟨hne, fun c hc => (valueClass_admits c).mp (hw c hc)⟩

theorem quote_plain {value : Str} (h : ∀ c ∈ value, c ≠ '\'') : quote value = value := by
  induction value with
  | nil => rfl
  | cons c value ih =>
    rw [quote_cons, if_neg (h c (by simp)), ih fun x hx => h x (by simp [hx])]
    rfl

theorem match_plain {name value : Str} (hname : IsName name) (hvalue : Plain value) :
    strMatch (exportLine name value) configPattern = some [name, value] := by
  refine strMatch_start (by simp) compile_configPattern (?_ : _ = some (([] : Str), _))
  rw [exportLine, quote_plain fun c hc => (hvalue.2 c hc).1, configItems, doMatch_literal]
  refine doMatch_field hname.1 (fun c hc => (nameClass_admits c).mpr fun h => hname.no_equals (h ▸ hc))
    (stops_cons (by decide) _) (doMatch_char ?_)
  have hfield : doMatch [.openCapture, .single valueClass .plus, .closeCapture, .single quoteClass .optional]
      (value ++ ['\'']) [.text name] = some ([], [.text value, .text name]) :=
    doMatch_field hvalue.1 (fun c hc => (valueClass_admits c).mpr (hvalue.2 c hc))
      (stops_cons (by decide) _) rfl
  exact doMatch_optional (by decide) hfield

end Pattern

section Runs

variable {expand : Env → Str → Str}

theorem exportLine_no_newline {name value : Str} (hname : IsName name) (hvalue : '\n' ∉ value) :
    '\n' ∉ exportLine name value := by
  have hquote : '\n' ∉ quote value := by
    intro h
    obtain ⟨c, hc, hmem⟩ := List.mem_flatMap.mp h
    split_ifs at hmem
    · exact absurd hmem (by decide)
    · exact hvalue (List.mem_singleton.mp hmem ▸ hc)
  have hfree : '\n' ∉ name := by
    intro h
    rcases hname.2 _ h with h | h
    · exact absurd h (by decide)
    · exact absurd h (by decide)
  have hexport : '\n' ∉ exportWord := by decide
  simp [exportLine, hquote, hfree, hexport]

theorem run_config (s : Shell) (c : Call) :
    (c.run expand s).config = s.config ++ (exportLine c.name (c.written expand s) ++ ['\n']) := by
  cases c with
  | const name value => rfl
  | setData name default => rfl

/-- What the calls of a run assign. -/
def assignments (expand : Env → Str → Str) (s : Shell) : List Call → List (Str × Str)
  | [] => []
  | c :: calls => (c.name, c.written expand s) :: assignments expand (c.run expand s) calls

theorem assignments_concat (s : Shell) (calls : List Call) (c : Call) :
    assignments expand s (calls ++ [c]) =
      assignments expand s calls ++ [(c.name, c.written expand (calls.foldl (Call.run expand) s))] := by
  induction calls generalizing s with
  | nil => rfl
  | cons c' calls ih => exact congrArg ((c'.name, c'.written expand s) :: ·) (ih _)

theorem config_run (s : Shell) (calls : List Call) :
    (calls.foldl (Call.run expand) s).config = s.config ++ configText (assignments expand s calls) := by
  induction calls using List.reverseRecOn with
  | nil => simp [assignments, configText]
  | append_singleton calls c ih =>
    rw [List.foldl_append, assignments_concat, configText_concat, ← List.append_assoc, ← ih]
    exact run_config _ c

/-- Names that can be assigned to and values of one line. -/
def OneLine (as : List (Str × Str)) : Prop := ∀ a ∈ as, IsName a.1 ∧ '\n' ∉ a.2

theorem samConfig_configText {as : List (Str × Str)} (has : OneLine as) :
    samConfig (configText as) =
      as.foldl (fun retval a => samLine retval (exportLine a.1 a.2)) { config := fun _ => none, mapped := fun _ => none } := by
  have hlines : fileLines (configText as) = as.map fun a => exportLine a.1 a.2 :=
    fileLines_flatMap _ fun a ha => exportLine_no_newline (has a ha).1 (has a ha).2
  rw [samConfig, hlines, List.foldl_map]

theorem samConfig_concat {as : List (Str × Str)} {a : Str × Str} (has : OneLine (as ++ [a])) :
    samConfig (configText (as ++ [a])) = samLine (samConfig (configText as)) (exportLine a.1 a.2) := by
  rw [samConfig_configText has, samConfig_configText fun b hb => has b (List.mem_append_left _ hb),
    List.foldl_append]
  rfl

/-- The values that the Lua reader finds are plain, whatever the lines are. -/
theorem samLine_plain {retval : SamTable} (h :
    ∀ name value, retval.config name = some value → Plain value) (line : Str) :
    ∀ name value, (samLine retval line).config name = some value → Plain value := by
  intro name value hvalue
  unfold samLine at hvalue
  split at hvalue
  next name' value' hmatch =>
    dsimp only at hvalue
    by_cases hname : name = name'
    · subst hname
      rw [Function.update_self] at hvalue
      exact Option.some.inj hvalue ▸ plain_of_match hmatch
    · rw [Function.update_of_ne hname] at hvalue
      exact h name value hvalue
  next => exact h name value hvalue

theorem samConfig_plain (config name value : Str) (h : (samConfig config).config name = some value) :
    Plain value := by
  have hlines (lines : List Str) (retval : SamTable)
      (hretval : ∀ name value, retval.config name = some value → Plain value) :
      ∀ name value, (lines.foldl samLine retval).config name = some value → Plain value := by
    induction lines generalizing retval with
    | nil => exact hretval
    | cons line lines ih => exact ih _ (samLine_plain hretval line)
  exact hlines (fileLines config) _ (fun _ _ hnone => by cases hnone) name value h

/-- Where all values are plain, both readers see the last assignment of each name. -/
theorem samConfig_eq_lastValue {as : List (Str × Str)} (has : OneLine as) (hplain : ∀ a ∈ as, Plain a.2) :
    (samConfig (configText as)).config = lastValue as := by
  induction as using List.reverseRecOn with
  | nil => rfl
  | append_singleton as a ih =>
    have hfront := ih (fun b hb => has b (List.mem_append_left _ hb)) fun b hb =>
      hplain b (List.mem_append_left _ hb)
    have hlast : a ∈ as ++ [a] := by simp
    funext name
    rw [samConfig_concat has, lastValue_concat, samLine, match_plain (has a hlast).1 (hplain a hlast)]
    dsimp only
    rw [hfront]
    by_cases hname : a.1 = name
    · rw [if_pos hname, ← hname, Function.update_self]
    · rw [if_neg hname, Function.update_of_ne (Ne.symm hname)]

/-- After every call of a run both readers see the same variables if and only if every value that
is written is plain: not empty, without quotes and without equals sign. -/
theorem samConfig_agrees_iff {s : Shell} (hs : s.config = []) {calls : List Call}
    (hnames : ∀ c ∈ calls, IsName c.name)
    (hlines : ∀ done c, done ++ [c] <+: calls → '\n' ∉ c.written expand (done.foldl (Call.run expand) s)) :
    (∀ done, done <+: calls → (samConfig (done.foldl (Call.run expand) s).config).config =
        sourced (done.foldl (Call.run expand) s).config) ↔
      ∀ done c, done ++ [c] <+: calls → Plain (c.written expand (done.foldl (Call.run expand) s)) := by
  have hconfig (done : List Call) : (done.foldl (Call.run expand) s).config =
    configText (assignments expand s done) := by
    rw [config_run, hs, List.nil_append]
  have honeLine (done : List Call) (hdone : done <+: calls) : OneLine (assignments expand s done) := by
    induction done using List.reverseRecOn with
    | nil => exact fun a ha => by cases ha
    | append_singleton done c ih =>
      intro a ha
      rw [assignments_concat] at ha
      rcases List.mem_append.mp ha with ha | ha
      · exact ih ((List.prefix_append done [c]).trans hdone) a ha
      · rw [List.mem_singleton.mp ha]
        exact ⟨hnames c (hdone.subset (by simp)), hlines done c hdone⟩
  have hsourced (done : List Call) (hdone : done <+: calls) :
      sourced (configText (assignments expand s done)) = lastValue (assignments expand s done) :=
    sourced_configText fun a ha => (honeLine done hdone a ha).1.no_equals
  constructor
  · intro hagree done c hrun
    have hlast := congrFun (hagree (done ++ [c]) hrun) c.name
    rw [hconfig, hsourced _ hrun, assignments_concat, lastValue_concat, if_pos rfl] at hlast
    exact samConfig_plain _ _ _ hlast
  · intro hplain done hdone
    rw [hconfig, hsourced done hdone]
    refine samConfig_eq_lastValue (honeLine done hdone) ?_
    induction done using List.reverseRecOn with
    | nil => exact fun a ha => by cases ha
    | append_singleton done c ih =>
      intro a ha
      rw [assignments_concat] at ha
      rcases List.mem_append.mp ha with ha | ha
      · exact ih ((List.prefix_append done [c]).trans hdone) a ha
      · rw [List.mem_singleton.mp ha]
        exact hplain done c hdone

end Runs

/-- A shell at the start of a cycle, without variables. -/
def sampleShell : Shell where
  env := fun _ => []
  expert := 0
  config := []
  data := []
  item := []
  menumode := 0

theorem samConfig_agrees_iff_sample :
    (samConfig ([Call.setData "SDECFG_OPT".toList "size".toList].foldl
        (Call.run fun _ default => default) sampleShell).config).config =
      sourced ([Call.setData "SDECFG_OPT".toList "size".toList].foldl
        (Call.run fun _ default => default) sampleShell).config := by
  have hone (done : List Call) (c : Call) (h : done ++
    [c] <+: [Call.setData "SDECFG_OPT".toList "size".toList]) :
      done = [] ∧ c = Call.setData "SDECFG_OPT".toList "size".toList := by
    obtain ⟨rest, hrest⟩ := h
    cases done with
    | nil => exact ⟨rfl, (List.cons.inj hrest).1⟩
    | cons d done =>
      have := congrArg List.length hrest
      simp at this
  have hwritten : (Call.setData "SDECFG_OPT".toList "size".toList).written (fun _ default =>
    default) sampleShell =
      ['s', 'i', 'z', 'e'] := by decide +kernel
  refine (samConfig_agrees_iff rfl ?_ ?_).mpr ?_ _ (List.prefix_refl _)
  · intro c hc
    rw [List.mem_singleton.mp hc]
    have hall : "SDECFG_OPT".toList.all (fun c => c.isAlphanum || c == '_') = true := by decide +kernel
    exact ⟨by decide +kernel, fun c hc => by simpa using List.all_eq_true.mp hall c hc⟩
  · intro done c hrun
    obtain ⟨rfl, rfl⟩ := hone done c hrun
    show '\n' ∉ (Call.setData "SDECFG_OPT".toList "size".toList).written (fun _ default =>
      default) sampleShell
    rw [hwritten]
    decide
  · intro done c hrun
    obtain ⟨rfl, rfl⟩ := hone done c hrun
    show Plain ((Call.setData "SDECFG_OPT".toList "size".toList).written (fun _ default =>
      default) sampleShell)
    rw [hwritten]
    exact ⟨by simp, by simp⟩

/-- A value with an equals sign is cut off, and an empty one is not found. -/
theorem samConfig_differs :
    (samConfig ([Call.const "SDECFG_OPT".toList "size=66%".toList].foldl
        (Call.run fun _ default => default) sampleShell).config).config ≠
      sourced ([Call.const "SDECFG_OPT".toList "size=66%".toList].foldl
        (Call.run fun _ default => default) sampleShell).config ∧
    (samConfig ([Call.const "SDECFG_OPT".toList []].foldl
        (Call.run fun _ default => default) sampleShell).config).config ≠
      sourced ([Call.const "SDECFG_OPT".toList []].foldl
        (Call.run fun _ default => default) sampleShell).config := by
  constructor
  · intro h
    exact absurd (congrFun h "SDECFG_OPT".toList) (by decide +kernel)
  · intro h
    exact absurd (congrFun h "SDECFG_OPT".toList) (by decide +kernel)

end T2SDE.Config
