import T2SDE.WrapperMain

namespace T2SDE

open Text CString

/-- A program started by the wrapper: an external wrapper, with OTHERS_DONE and whether its
buffer was large enough, or the real command. -/
inductive Started
  | wrapper (name done : Str) (fits : Bool)
  | command (vector : List Str)

/-- The programs started from a command line, where the programs `ws` re-execute the command line
behind their own name; none while the run goes on. -/
def runChain (w : CmdWrapper) (ws : List Str) : Nat → WrapperEnv → Str → List Str → Option (List Started)
  | 0, _, _, _ => none
  | fuel + 1, env, argv0, args =>
    match cmdWrapperMain w env argv0 args with
    | .exit _ => some []
    | .command exec => some [.command exec.vector]
    | .other exec =>
      match exec.vector with
      | name :: argv0 :: args =>
        let started := Started.wrapper name (exec.env.othersDone.getD []) exec.doneFits
        -- `execvp` of a program that does not exist ends the run
        if name ∈ ws then (runChain w ws fuel exec.env argv0 args).map (started :: ·)
        else some [started]
      | _ => some []

def joinNames (ws : List Str) : Str := [':'].intercalate ws

/-- The wrappers `ws` in their order, behind those already done. -/
def wrapperChain : List Str → List Str → List Started
  | _, [] => []
  | done, name :: ws =>
    .wrapper name (joinNames (done ++ [name])) true :: wrapperChain (done ++ [name]) ws

/-- A run ends with each wrapper executed once, in their order, and then the real command. -/
def ChainRuns (w : CmdWrapper) (ws : List Str) (env : WrapperEnv) (argv0 : Str) (args : List Str) : Prop :=
  ∃ fuel vector, runChain w ws fuel env argv0 args = some (wrapperChain [] ws ++ [.command vector])

/-- The names of programs in a colon-separated list. -/
def WrapperNames (ws : List Str) : Prop := ∀ name ∈ ws, name ≠ [] ∧ ':' ∉ name ∧ nul ∉ name

theorem basename_plain {name : Str} (hne : name ≠ []) (hslash : '/' ∉ name) : basename name = name := by
  have hall : ∀ c ∈ name.reverse, (c != '/') = true := by
    intro c hc
    simpa using fun h : c = '/' => hslash (h ▸ List.mem_reverse.mp hc)
  have hdrop : name.reverse.dropWhile (· == '/') = name.reverse := by
    cases hr : name.reverse with
    | nil => rfl
    | cons c r =>
      have := hall c (by simp [hr])
      rw [List.dropWhile_cons_of_neg (by simpa using this)]
  simp only [basename, hne, hdrop, List.reverse_eq_nil_iff, if_false]
  rw [List.takeWhile_eq_self_iff.mpr hall, List.reverse_reverse]

theorem basename_cases (path : Str) :
    basename path = ".".toList ∨ basename path = "/".toList ∨
      (basename path ≠ [] ∧ '/' ∉ basename path) := by
  by_cases hpath : path = []
  · simp [basename, hpath]
  by_cases hstripped : path.reverse.dropWhile (· == '/') = []
  · simp [basename, hpath, hstripped]
  · right; right
    simp only [basename, hpath, hstripped, if_false, ne_eq, List.reverse_eq_nil_iff, List.mem_reverse]
    constructor
    · cases hr : path.reverse.dropWhile (· == '/') with
      | nil => exact absurd hr hstripped
      | cons c r =>
        have hc := List.head_dropWhile_not (· == '/') hstripped
        simp only [hr, List.head_cons] at hc
        have hc' : (c != '/') = true := by simpa using hc
        simp [hc']
    · intro h
      simpa using List.mem_takeWhile_imp h

theorem basename_basename (path : Str) : basename (basename path) = basename path := by
  rcases basename_cases path with h | h | ⟨hne, hslash⟩
  · rw [h]; rfl
  · rw [h]; rfl
  · exact basename_plain hne hslash

theorem commandLine_again {w : CmdWrapper} {argv0 cmd : Str} {args args' : List Str}
    (hline : commandLine w argv0 args = some (cmd, args')) (hcmd : cmd ≠ w.myname) (rest : List Str) :
    commandLine w cmd rest = some (cmd, rest) := by
  have hbase : basename cmd = cmd := by
    unfold commandLine at hline
    split at hline
    · cases args with
      | nil => simp at hline
      | cons arg args =>
        obtain ⟨rfl, _⟩ := Prod.mk.inj (Option.some.inj hline)
        exact basename_basename arg
    · obtain ⟨rfl, _⟩ := Prod.mk.inj (Option.some.inj hline)
      exact basename_basename argv0
  simp only [commandLine, hbase, hcmd, if_false]

theorem joinNames_cons (name other : Str) (ws : List Str) :
    joinNames (name :: other :: ws) = name ++ ':' :: joinNames (other :: ws) :=
  intercalate_cons ':' name other ws

theorem joinNames_clean {ws : List Str} (hws : WrapperNames ws) :
    cleanenv ':' (some (joinNames ws)) = some (joinNames ws) := by
  have htokens : tokens (· == ':') (joinNames ws) = ws := by
    refine tokens_intercalate (by simp) fun name hname => ?_
    obtain ⟨hne, hcolon, _⟩ := hws name hname
    exact ⟨hne, fun c hc => by simpa using fun h : c = ':' => hcolon (h ▸ hc)⟩
  rw [cleanenv_eq, Option.getD_some, htokens]
  rfl

theorem joinNames_ne_nil {name : Str} {ws : List Str} (hne : name ≠ []) : joinNames (name :: ws) ≠ [] := by
  cases ws with
  | nil => simpa [joinNames, List.intercalate] using hne
  | cons other ws => simp [joinNames_cons]

theorem nextOther_first {name : Str} {ws : List Str} (hname : name ≠ [] ∧ ':' ∉ name ∧ nul ∉ name) :
    nextOther (some (joinNames (name :: ws))) none =
      some { other := some name, othersDone := some name, fits := true } := by
  obtain ⟨hne, hcolon, hnul⟩ := hname
  have hset : isSet (some (joinNames (name :: ws))) = true := by
    simp [isSet, joinNames_ne_nil hne]
  have hfirst : (strtok ':' (strcpy (joinNames (name :: ws))) 0).map (fun t => strAt t.mem t.tok) =
      some name := by
    cases ws with
    | nil =>
      have htok := strtok_last (by simp : ∀ c ∈ [], (c == ':') = true) hne hcolon hnul []
      have hstr := strAt_of [] [] hnul
      simp only [List.nil_append, List.append_nil, List.length_nil] at htok hstr
      have hjoin : joinNames [name] = name := by simp [joinNames, List.intercalate]
      rw [hjoin, htok, Option.map_some, hstr]
    | cons other ws =>
      have htok := strtok_next (by decide : ':' ≠ nul) (by simp : ∀ c ∈ [], (c == ':') = true) hne
        hcolon hnul [] (joinNames (other :: ws))
      have hstr := strAt_of [] (strcpy (joinNames (other :: ws))) hnul
      simp only [List.nil_append, List.append_nil, List.length_nil] at htok hstr
      rw [joinNames_cons, htok, Option.map_some, hstr]
  simp only [nextOther, hset, Bool.not_true, Bool.false_eq_true, if_false, Option.getD_some, hfirst]

theorem nextOther_done {done : Str} (hne : done ≠ []) :
    nextOther (some done) (some done) = some { other := none, othersDone := some done, fits := true } := by
  simp [nextOther, isSet, hne]

/-- Behind the first wrapper all others are taken as one, and the buffer is one too small. -/
theorem nextOther_rest (done rest : Str) :
    nextOther (some (done ++ ':' :: rest)) (some done) =
      some { other := some rest, othersDone := some (done ++ ':' :: rest), fits := false } := by
  simp [nextOther, isSet]

theorem Ready.restart {env : WrapperEnv} (h : Ready env) (done : Option Str) :
    Ready (env.clean.setDone done) := by
  have hne : nul ≠ ' ' := by decide
  have hempty : env.filter.getD [] = [] := by simpa [isSet] using h.filter
  constructor <;> simp only [WrapperEnv.setDone, h.clean_eq, cleanenv_eq, Option.getD_some]
  · exact h.bypass
  · simp [hempty, isSet, List.intercalate]
  · exact h.path
  · exact h.mypath
  · exact h.noloop
  · exact not_mem_cleaned h.insert hne
  · exact not_mem_cleaned h.remove hne
  · exact not_mem_cleaned h.append hne

section Chain

variable {w : CmdWrapper} {env : WrapperEnv} {argv0 cmd : Str} {args args' : List Str}

def rewrittenArgs (w : CmdWrapper) (env : WrapperEnv) (cmd : Str) (args : List Str) : List Str :=
  (rewritten w env cmd args).tail

theorem cmdWrapperMain_other (h : Ready env) (hline : commandLine w argv0 args = some (cmd, args'))
    {name : Str} {done : Option Str} {fits : Bool} (hne : name ≠ [])
    (hnext : nextOther env.clean.others env.othersDone = some ⟨some name, done, fits⟩) :
    cmdWrapperMain w env argv0 args =
      .other ⟨env.clean.setDone done, name :: cmd :: rewrittenArgs w env cmd args', true, fits⟩ := by
  have hset : isSet (some name) = true := by simp [isSet, hne]
  simp only [cmdWrapperMain, hline, wrapCommand_spec w h hnext, hset, if_true]
  rfl

theorem cmdWrapperMain_command (h : Ready env) (hline : commandLine w argv0 args = some (cmd, args'))
    {other done : Option Str} {fits : Bool} (hset : isSet other = false)
    (hnext : nextOther env.clean.others env.othersDone = some ⟨other, done, fits⟩) :
    cmdWrapperMain w env argv0 args =
      .command ⟨(env.clean.setDone done).forCommand, rewritten w env cmd args', true, fits⟩ := by
  simp [cmdWrapperMain, hline, wrapCommand_spec w h hnext, hset]

theorem restart_vars (h : Ready env) {ws : List Str} (hws : WrapperNames ws)
    (hothers : env.others = some (joinNames ws)) (done : Option Str) :
    (env.clean.setDone done).clean.others = some (joinNames ws) ∧
      (env.clean.setDone done).othersDone = done := by
  refine ⟨?_, rfl⟩
  rw [(h.restart done).clean_eq]
  simp only [WrapperEnv.setDone, h.clean_eq, hothers, joinNames_clean hws]

theorem chainRuns_nil (h : Ready env) (hothers : env.others = some (joinNames []))
    (hdone : env.othersDone = none) (hline : commandLine w argv0 args = some (cmd, args')) :
    ChainRuns w [] env argv0 args := by
  have hnext : nextOther env.clean.others env.othersDone = some ⟨some [], none, true⟩ := by
    rw [h.clean_eq, hothers, hdone]
    rfl
  have hmain := cmdWrapperMain_command h hline (by rfl) hnext
  exact ⟨1, rewritten w env cmd args', by simp [runChain, hmain, wrapperChain]⟩

theorem runChain_first (h : Ready env) {name : Str} {ws : List Str} (hws : WrapperNames (name :: ws))
    (hothers : env.others = some (joinNames (name :: ws))) (hdone : env.othersDone = none)
    (hline : commandLine w argv0 args = some (cmd, args')) (fuel : Nat) :
    runChain w (name :: ws) (fuel + 1) env argv0 args =
      (runChain w (name :: ws) fuel (env.clean.setDone (some name)) cmd
        (rewrittenArgs w env cmd args')).map (.wrapper name name true :: ·) := by
  have hname := hws name (by simp)
  have hnext : nextOther env.clean.others env.othersDone = some ⟨some name, some name, true⟩ := by
    have hclean : env.clean.others = some (joinNames (name :: ws)) := by
      simp only [h.clean_eq, hothers, joinNames_clean hws]
    rw [hclean, hdone]
    exact nextOther_first hname
  have hmain := cmdWrapperMain_other h hline hname.1 hnext
  simp only [runChain, hmain, List.mem_cons, true_or, if_true]
  rfl

/-- With a single external wrapper the second run of the wrapper starts the real command. -/
theorem runChain_single (h : Ready env) {name : Str} (hname : name ≠ [] ∧ ':' ∉ name ∧ nul ∉ name)
    (hothers : env.others = some (joinNames [name])) (hdone : env.othersDone = none)
    (hcmd : cmd ≠ w.myname) (hline : commandLine w argv0 args = some (cmd, args')) (fuel : Nat) :
    runChain w [name] (fuel + 2) env argv0 args =
      some [.wrapper name name true, .command (rewritten w (env.clean.setDone (some name)) cmd
        (rewrittenArgs w env cmd args'))] := by
  have hws : WrapperNames [name] := by simpa [WrapperNames] using hname
  have hjoin : joinNames [name] = name := by simp [joinNames, List.intercalate]
  have hready := h.restart (some name)
  obtain ⟨hvars, hdone'⟩ := restart_vars h hws hothers (some name)
  have hnext : nextOther (env.clean.setDone (some name)).clean.others
      (env.clean.setDone (some name)).othersDone = some ⟨none, some name, true⟩ := by
    rw [hvars, hdone', hjoin]
    exact nextOther_done hname.1
  have hmain := cmdWrapperMain_command hready (commandLine_again hline hcmd (rewrittenArgs w env cmd args'))
    (by rfl) hnext
  rw [runChain_first h hws hothers hdone hline]
  simp [runChain, hmain]

/-- With two or more external wrappers the second program started is the whole rest of the
list, and OTHERS_DONE overflows its buffer by one. -/
theorem runChain_second (h : Ready env) {name other : Str} {ws : List Str}
    (hws : WrapperNames (name :: other :: ws))
    (hothers : env.others = some (joinNames (name :: other :: ws))) (hdone : env.othersDone = none)
    (hcmd : cmd ≠ w.myname) (hline : commandLine w argv0 args = some (cmd, args')) {fuel : Nat}
    {started : List Started}
    (hrun : runChain w (name :: other :: ws) fuel env argv0 args = some started) :
    ∃ rest, started = .wrapper name name true ::
      .wrapper (joinNames (other :: ws)) (joinNames (name :: other :: ws)) false :: rest := by
  have hready := h.restart (some name)
  obtain ⟨hvars, hdone'⟩ := restart_vars h hws hothers (some name)
  have hnext : nextOther (env.clean.setDone (some name)).clean.others
      (env.clean.setDone (some name)).othersDone =
      some ⟨some (joinNames (other :: ws)), some (joinNames (name :: other :: ws)), false⟩ := by
    rw [hvars, hdone', joinNames_cons]
    exact nextOther_rest name (joinNames (other :: ws))
  have hmain := cmdWrapperMain_other hready
    (commandLine_again hline hcmd (rewrittenArgs w env cmd args'))
    (joinNames_ne_nil (hws other (by simp)).1) hnext
  cases fuel with
  | zero => simp [runChain] at hrun
  | succ fuel =>
    rw [runChain_first h hws hothers hdone hline] at hrun
    cases fuel with
    | zero => simp [runChain] at hrun
    | succ fuel =>
      rw [runChain, hmain] at hrun
      obtain ⟨second, hsecond, rfl⟩ := Option.map_eq_some_iff.mp hrun
      dsimp only at hsecond
      split at hsecond
      · obtain ⟨rest, _, rfl⟩ := Option.map_eq_some_iff.mp hsecond
        exact ⟨rest, rfl⟩
      · exact ⟨[], by rw [← Option.some.inj hsecond]; rfl⟩

theorem not_chainRuns (h : Ready env) {name other : Str} {ws : List Str}
    (hws : WrapperNames (name :: other :: ws))
    (hothers : env.others = some (joinNames (name :: other :: ws))) (hdone : env.othersDone = none)
    (hcmd : cmd ≠ w.myname) (hline : commandLine w argv0 args = some (cmd, args')) :
    ¬ChainRuns w (name :: other :: ws) env argv0 args := by
  rintro ⟨fuel, vector, hrun⟩
  obtain ⟨rest, hstarted⟩ := runChain_second h hws hothers hdone hcmd hline hrun
  simp [wrapperChain] at hstarted

end Chain

/-- The external wrappers and then the command are executed, each once and in their order, with
OTHERS_DONE kept within its buffer, exactly when there is at most one external wrapper. -/
theorem chainRuns_iff (w : CmdWrapper) (ws : List Str) (hnames : WrapperNames ws) (env : WrapperEnv)
    (h : Ready env) (hothers : env.others = some (joinNames ws))
    (hdone : env.othersDone = none) (argv0 : Str) (args : List Str) (cmd : Str) (args' : List Str)
    (hline : commandLine w argv0 args = some (cmd, args')) (hcmd : cmd ≠ w.myname) :
    ChainRuns w ws env argv0 args ↔ ws.length ≤ 1 := by
  match ws with
  | [] => exact ⟨fun _ => by simp, fun _ => chainRuns_nil h hothers hdone hline⟩
  | [name] =>
    have hjoin : joinNames [name] = name := by simp [joinNames, List.intercalate]
    have hrun := runChain_single h (hnames name (by simp)) hothers hdone hcmd hline 0
    exact ⟨fun _ => by simp, fun _ => ⟨2, _, by simpa [wrapperChain, hjoin] using hrun⟩⟩
  | name :: other :: ws =>
    exact ⟨fun hruns => absurd hruns (not_chainRuns h hnames hothers hdone hcmd hline), by simp⟩

theorem chainRuns_iff_sample :
    ChainRuns sampleWrapper ["ccache".toList] (sampleEnv (some "ccache".toList)) "gcc".toList
      ["a.c".toList] ↔ ["ccache".toList].length ≤ 1 :=
  chainRuns_iff sampleWrapper ["ccache".toList] (by simp only [WrapperNames]; decide)
    (sampleEnv (some "ccache".toList)) (sampleEnv_ready _) rfl rfl "gcc".toList ["a.c".toList]
    "gcc".toList ["a.c".toList] (by decide +kernel) (by decide)

def threeWrappers : List Str := ["ccache".toList, "distcc".toList, "colorgcc".toList]

/-- Of three external wrappers the second and the third are asked for as one program. -/
theorem three_wrappers_fail :
    threeWrappers.Nodup ∧ WrapperNames threeWrappers ∧
      ¬ChainRuns sampleWrapper threeWrappers (sampleEnv (some "ccache:distcc:colorgcc".toList))
        "gcc".toList ["a.c".toList] := by
  have hnames : WrapperNames threeWrappers := by
    simp only [WrapperNames]
    decide
  have hline : commandLine sampleWrapper "gcc".toList ["a.c".toList] =
      some ("gcc".toList, ["a.c".toList]) := by decide +kernel
  refine ⟨by decide, hnames, ?_⟩
  exact not_chainRuns (sampleEnv_ready _) hnames rfl rfl (by decide) hline

end T2SDE
