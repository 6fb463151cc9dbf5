import T2SDE.ConfigSource
import T2SDE.Lib.Joined
import T2SDE.WrapperMain

namespace T2SDE

open Text CString

def isNameChar (c : Char) : Bool := c.isAlphanum || c == '_'

/-- The variables of a shell; some are not set. -/
abbrev ShellEnv := Str → Option Str

/-- What `$name` stands for; a dollar with no name behind it stands for itself. -/
def parameter (env : ShellEnv) (name : Str) : Str := if name = [] then ['$'] else (env name).getD []

/-- The expansion of a text in double quotes, from inside the name of a variable or outside of one. -/
def expandQuoted (env : ShellEnv) : Option Str → Str → Str
  | none, [] => []
  | none, c :: s => if c = '$' then expandQuoted env (some []) s else c :: expandQuoted env none s
  | some name, [] => parameter env name
  | some name, c :: s =>
    if isNameChar c then expandQuoted env (some (name ++ [c])) s
    else parameter env name ++ if c = '$' then expandQuoted env (some []) s else c :: expandQuoted env none s

def wrapperVariable (y field : Str) : Str := y ++ "_WRAPPER_".toList ++ field

/-- What `build_wrapper` writes between the quotes of `export CMD_WRAPPER_<field>=".."`. -/
def joinedText (sep : Char) (field : Str) (x : List Str) : Str :=
  (x.foldl (fun (out : Str × Str) y => (out.1 ++ out.2 ++ '$' :: wrapperVariable y field, [sep])) ([], [])).1

/-- The variables with which the generated wrapper calls `cmd_wrapper`. -/
def generatedEnv (x : List Str) (env : ShellEnv) : WrapperEnv :=
  let joined (sep : Char) (field : Str) : Option Str := some (expandQuoted env none (joinedText sep field x))
  { bypass := if x.any fun y =>
    env (wrapperVariable y "BYPASS".toList) == some "1".toList then some "1".toList
      else env (wrapperVariable "CMD".toList "BYPASS".toList)
    others := joined ':' "OTHERS".toList
    othersDone := env (wrapperVariable "CMD".toList "OTHERS_DONE".toList)
    insert := joined ' ' "INSERT".toList
    remove := joined ' ' "REMOVE".toList
    append := joined ' ' "APPEND".toList
    filter := joined '|' "FILTER".toList
    path := env "PATH".toList
    mypath := env (wrapperVariable "CMD".toList "MYPATH".toList)
    noloop := env (wrapperVariable "CMD".toList "NOLOOP".toList) }

section Expansion

variable {env : ShellEnv}

theorem expandQuoted_name {name : Str} (hname : ∀ c ∈ name, isNameChar c = true) (before s : Str) :
    expandQuoted env (some before) (name ++ s) = expandQuoted env (some (before ++ name)) s := by
  induction name generalizing before with
  | nil => simp
  | cons c name ih =>
    rw [List.cons_append, expandQuoted, if_pos (hname c List.mem_cons_self),
      ih (fun x hx => hname x (List.mem_cons_of_mem c hx)), List.append_assoc]
    rfl

theorem expandQuoted_end {name : Str} (hne : name ≠ []) (hname : ∀ c ∈ name, isNameChar c = true) :
    expandQuoted env none ('$' :: name) = (env name).getD [] := by
  have hrun := @expandQuoted_name env _ hname [] []
  rw [List.append_nil, List.nil_append] at hrun
  rw [expandQuoted, if_pos rfl, hrun, expandQuoted, parameter, if_neg hne]

theorem expandQuoted_sep {name : Str} (hne : name ≠ []) (hname : ∀ c ∈ name, isNameChar c = true) {sep : Char}
    (hsep : isNameChar sep = false) (hdollar : sep ≠ '$') (s : Str) :
    expandQuoted env none ('$' :: (name ++ sep :: s)) =
    (env name).getD [] ++ sep :: expandQuoted env none s := by
  rw [expandQuoted, if_pos rfl, expandQuoted_name hname, List.nil_append, expandQuoted,
    if_neg (by simp [hsep]), if_neg hdollar, parameter, if_neg hne]

theorem joinedText_cons (sep : Char) (field y z : Str) (x : List Str) :
    joinedText sep field (y :: z :: x) = '$' ::
    (wrapperVariable y field ++ sep :: joinedText sep field (z :: x)) := by
  have hbefore : ∀ (l : List Str) (out : Str × Str) (s : Str),
      (l.foldl (fun (out : Str × Str) y => (out.1 ++ out.2 ++ '$' :: wrapperVariable y field, [sep]))
        (s ++ out.1, out.2)).1 =
        s ++ (l.foldl (fun (out : Str × Str) y =>
          (out.1 ++ out.2 ++ '$' :: wrapperVariable y field, [sep])) out).1 := by
    intro l
    induction l with
    | nil => exact fun _ _ => rfl
    | cons v l ih =>
      intro out s
      have hstep := ih (out.1 ++ out.2 ++ '$' :: wrapperVariable v field, [sep]) s
      simpa using hstep
  have hfirst := hbefore x ('$' :: wrapperVariable z field, [sep]) ('$' :: wrapperVariable y field ++ [sep])
  simpa [joinedText] using hfirst

theorem variable_chars {y field : Str} (hy : Config.IsVariable y)
    (hfield : ∀ c ∈ field, isNameChar c = true) :
    wrapperVariable y field ≠ [] ∧ ∀ c ∈ wrapperVariable y field, isNameChar c = true := by
  obtain ⟨⟨hne, hchars⟩, _⟩ := hy
  refine ⟨by simp [wrapperVariable, hne], fun c hc => ?_⟩
  rcases List.mem_append.mp hc with hc | hc
  · rcases List.mem_append.mp hc with hc | hc
    · simpa [isNameChar] using hchars c hc
    · exact List.all_eq_true.mp (rfl : "_WRAPPER_".toList.all isNameChar = true) c hc
  · exact hfield c hc

/-- The generated line joins the values of the variables. -/
theorem expandQuoted_joinedText {sep : Char} (hsep : isNameChar sep = false) (hdollar : sep ≠ '$')
    {field : Str}
    (hfield : ∀ c ∈ field, isNameChar c = true) {x : List Str} (hx : ∀ y ∈ x, Config.IsVariable y) :
    expandQuoted env none (joinedText sep field x) =
      [sep].intercalate (x.map fun y => (env (wrapperVariable y field)).getD []) := by
  induction x with
  | nil => rfl
  | cons y x ih =>
    obtain ⟨hne, hname⟩ := variable_chars (hx y List.mem_cons_self) hfield
    cases x with
    | nil =>
      have hone : joinedText sep field [y] = '$' :: wrapperVariable y field := rfl
      rw [hone, expandQuoted_end hne hname]
      simp [List.intercalate]
    | cons z x =>
      rw [joinedText_cons, expandQuoted_sep hne hname hsep hdollar,
        ih fun v hv => hx v (List.mem_cons_of_mem y hv)]
      exact (intercalate_cons sep _ _ _).symm

end Expansion

/-- The texts of the filters of the generated wrapper. -/
def filterTexts (x : List Str) (env : ShellEnv) : List Str :=
  x.map fun y => (env (wrapperVariable y "FILTER".toList)).getD []

/-- The text of the filter step, which runs it unless it is empty; none where main leaves in front of it. -/
def pipeline (w : CmdWrapper) (env : WrapperEnv) (argv0 : Str) (args : List Str) : Option Str :=
  (commandLine w argv0 args).bind fun _ =>
    (nextOther env.clean.others env.clean.othersDone).bind fun _ => env.clean.filter

section Pipeline

variable {w : CmdWrapper} {env : WrapperEnv} {argv0 : Str} {args : List Str}

theorem copyOptions_sh (sh : Str → Str → Str) (argv : List Str) (pointer : Nat → Pointer) (fuel : Nat)
    (mem : Str)
    (save : Nat) (newargv : NewArgv) :
    copyOptions { w with sh } argv pointer fuel mem save newargv =
      copyOptions w argv pointer fuel mem save newargv := by
  induction fuel generalizing mem save newargv with
  | zero => rfl
  | succ fuel ih =>
    rw [copyOptions, copyOptions]
    cases strtok ' ' mem save with
    | none => rfl
    | some t => exact ih _ _ _

theorem copyVariable_sh (sh : Str → Str → Str) (argv : List Str) (pointer : Nat → Pointer)
    (value : Option Str)
    (newargv : NewArgv) :
    copyVariable { w with sh } argv pointer value newargv = copyVariable w argv pointer value newargv := by
  cases value with
  | none => rfl
  | some s => exact copyOptions_sh sh argv pointer _ _ _ _

theorem removed_sh (sh : Str → Str → Str) (argv : List Str) (value : Option Str) (arg : Str) :
    removed { w with sh } argv value arg = removed w argv value arg := by
  have hloop : ∀ fuel mem save, removeLoop { w with sh } argv arg fuel mem save =
      removeLoop w argv arg fuel mem save := by
    intro fuel
    induction fuel with
    | zero => exact fun _ _ => rfl
    | succ fuel ih =>
      intro mem save
      rw [removeLoop, removeLoop]
      cases strtok ' ' mem save with
      | none => rfl
      | some t =>
        have hcond : evalCondArg { w with sh } argv t.mem t.tok = evalCondArg w argv t.mem t.tok := rfl
        simp only [hcond, ih]
  cases value with
  | none => rfl
  | some s => exact hloop _ _ _

theorem mainWork_sh (sh : Str → Str → Str) (env : WrapperEnv) (other : Option Str) (cmd : Str)
    (args : List Str) : mainWork { w with sh } env other cmd args = mainWork w env other cmd args := by
  simp only [mainWork, copyVariable_sh, removed_sh]

/-- Main uses the shell for nothing else than its pipeline. -/
theorem main_pipeline {sh : Str → Str → Str}
    (h : ∀ p, pipeline w env argv0 args = some p → sh p = w.sh p) :
    cmdWrapperMain { w with sh } env argv0 args = cmdWrapperMain w env argv0 args := by
  have hline : commandLine { w with sh } argv0 args = commandLine w argv0 args := rfl
  unfold cmdWrapperMain
  rw [hline]
  unfold pipeline at h
  cases hcmd : commandLine w argv0 args with
  | none => rfl
  | some line =>
    simp only [wrapCommand]
    cases hnext : nextOther env.clean.others env.clean.othersDone with
    | none => rfl
    | some next =>
      simp only [hcmd, hnext, Option.bind_some] at h
      have hfilter : ∀ work, applyFilter { w with sh } (env.clean.setDone next.othersDone).filter work =
          applyFilter w (env.clean.setDone next.othersDone).filter work := by
        intro work
        have hsame : (env.clean.setDone next.othersDone).filter = env.clean.filter := rfl
        rw [hsame]
        cases hp : env.clean.filter with
        | none => rfl
        | some p => simp only [applyFilter, Option.getD_some, h p hp]
      simp only [mainWork_sh, hfilter]

end Pipeline

theorem clean_filter {env : WrapperEnv} (hbypass : env.bypassed = false) :
    env.clean.filter = cleanenv '|' env.filter := by
  simp [WrapperEnv.clean, hbypass]

/-- A bar at an end of a filter, or one behind another, does not get through the cleaning. -/
theorem cleaned_iff (texts : List Str) :
    ['|'].intercalate (tokens (· == '|') (['|'].intercalate texts)) =
    ['|'].intercalate (texts.filter (!·.isEmpty)) ↔
      ∀ text ∈ texts, text.head? ≠ some '|' ∧ text.getLast? ≠ some '|' ∧ ¬['|', '|'] <:+: text := by
  -- empty texts can be left out on both sides
  have hskip : tokens (· == '|') (['|'].intercalate texts) =
      ((texts.filter (!·.isEmpty)).flatMap (·.splitOn '|')).filter (!·.isEmpty) := by
    by_cases hne : texts = []
    · subst hne
      rfl
    · rw [tokens_eq_filter, splitOn_joined hne]
      clear hne
      induction texts with
      | nil => rfl
      | cons text texts ih =>
        cases text with
        | nil => simpa [List.splitOn_nil] using ih
        | cons c text => simpa using ih
  have hparts : ['|'].intercalate (texts.filter (!·.isEmpty)) =
      ['|'].intercalate ((texts.filter (!·.isEmpty)).flatMap (·.splitOn '|')) := by
    by_cases hne : texts.filter (!·.isEmpty) = []
    · rw [hne]
      rfl
    · rw [← splitOn_joined hne, List.intercalate_splitOn]
  rw [hskip, hparts, joined_nonempty_iff]
  have hgood : [] ∉ (texts.filter (!·.isEmpty)).flatMap (·.splitOn '|') ↔
      ∀ text ∈ texts, text.head? ≠ some '|' ∧ text.getLast? ≠ some '|' ∧ ¬['|', '|'] <:+: text := by
    simp only [List.mem_flatMap, not_exists, not_and, nil_mem_splitOn, not_or]
    constructor
    · intro h text htext
      cases text with
      | nil => simp
      | cons c text => exact (h (c :: text) (List.mem_filter.mpr ⟨htext, rfl⟩)).2
    · intro h text htext
      obtain ⟨hmem, hne⟩ := List.mem_filter.mp htext
      exact ⟨by simpa using hne, h text hmem⟩
  rw [← hgood]
  refine ⟨fun h => h.elim id fun hone => ?_, .inl⟩
  -- a text that is not empty has a part that is not
  exfalso
  obtain ⟨text, rest, hcons⟩ : ∃ text rest, texts.filter (!·.isEmpty) = text :: rest := by
    refine List.exists_cons_of_ne_nil fun h => ?_
    rw [h] at hone
    cases hone
  have htext : text ≠ [] := by
    have hmem : text ∈ texts.filter (!·.isEmpty) := by simp [hcons]
    simpa using (List.mem_filter.mp hmem).2
  rw [hcons, List.flatMap_cons] at hone
  obtain ⟨part, parts, hsplit⟩ := List.exists_cons_of_ne_nil (List.splitOn_ne_nil '|' text)
  rw [hsplit, List.cons_append] at hone
  obtain ⟨hpart, hrest⟩ := List.cons.inj hone
  have hparts := (List.append_eq_nil_iff.mp hrest).1
  have hjoin := @List.intercalate_splitOn _ text _ _ '|'
  rw [hsplit, hpart, hparts] at hjoin
  exact htext (by simpa [List.intercalate] using hjoin.symm)

/-- The pipeline is that of the texts that are not empty, as long as none of them begins or ends with a
bar or has two bars next to each other. -/
theorem pipeline_iff (w : CmdWrapper) (x : List Str) (env : ShellEnv) (hx : ∀ y ∈ x, Config.IsVariable y)
    (argv0 : Str) (args : List Str) (hbypass : (generatedEnv x env).bypassed = false) (p : Str)
    (hp : pipeline w (generatedEnv x env) argv0 args = some p) :
    p = ['|'].intercalate ((filterTexts x env).filter (!·.isEmpty)) ↔
      ∀ text ∈ filterTexts x env, text.head? ≠ some '|' ∧ text.getLast? ≠ some '|' ∧
      ¬['|', '|'] <:+: text := by
  have hfield : ∀ c ∈ "FILTER".toList, isNameChar c = true :=
    List.all_eq_true.mp (rfl : "FILTER".toList.all isNameChar = true)
  have hjoined : (generatedEnv x env).filter = some (['|'].intercalate (filterTexts x env)) :=
    congrArg some (expandQuoted_joinedText rfl (by decide) hfield hx)
  have hclean : (generatedEnv x env).clean.filter =
      some (['|'].intercalate (tokens (· == '|') (['|'].intercalate (filterTexts x env)))) := by
    rw [clean_filter hbypass, cleanenv_eq, hjoined, Option.getD_some]
  obtain ⟨_, _, hp⟩ := Option.bind_eq_some_iff.mp hp
  obtain ⟨_, _, hp⟩ := Option.bind_eq_some_iff.mp hp
  rw [hclean] at hp
  rw [← Option.some.inj hp, cleaned_iff]

def filterEnv (text : Str) : ShellEnv := fun name =>
    if name = "GCC_WRAPPER_FILTER".toList then some text else none

theorem gcc_variables : ∀ y ∈ ["CC".toList, "GCC".toList], Config.IsVariable y := by
  intro y hy
  rcases List.mem_cons.mp hy with rfl | hy
  · exact Config.isVariable_of_all (by decide) rfl rfl
  · rw [List.mem_singleton.mp hy]
    exact Config.isVariable_of_all (by decide) rfl rfl

theorem pipeline_sed :
    pipeline sampleWrapper (generatedEnv ["CC".toList, "GCC".toList] (filterEnv "sed s/-g//|uniq".toList))
        "cmd_wrapper".toList ["gcc".toList] =
      some (['|'].intercalate ((filterTexts ["CC".toList,
      "GCC".toList] (filterEnv "sed s/-g//|uniq".toList)).filter
        (!·.isEmpty))) := by
  have hrun : pipeline sampleWrapper
      (generatedEnv ["CC".toList, "GCC".toList] (filterEnv "sed s/-g//|uniq".toList)) "cmd_wrapper".toList
      ["gcc".toList] = some "sed s/-g//|uniq".toList := by decide +kernel
  have hiff := pipeline_iff sampleWrapper ["CC".toList, "GCC".toList] (filterEnv "sed s/-g//|uniq".toList)
    gcc_variables "cmd_wrapper".toList ["gcc".toList] (by decide +kernel) _ hrun
  exact hrun.trans (congrArg some (hiff.mpr (by decide +kernel)))

/-- The operator between the two commands becomes a pipe. -/
theorem pipeline_or :
    pipeline sampleWrapper (generatedEnv ["CC".toList, "GCC".toList] (filterEnv "sed s/-g// || cat".toList))
      "cmd_wrapper".toList ["gcc".toList] = some "sed s/-g// | cat".toList ∧
      ['|'].intercalate ((filterTexts ["CC".toList,
      "GCC".toList] (filterEnv "sed s/-g// || cat".toList)).filter
        (!·.isEmpty)) = "sed s/-g// || cat".toList := by
  decide +kernel

end T2SDE
