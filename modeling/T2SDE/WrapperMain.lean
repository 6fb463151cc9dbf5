import T2SDE.CleanEnv
import T2SDE.WrapperRewrite

namespace T2SDE

open Text CString

/-- The variables of a wrapper that gets as far as calling `execvp`: no bypass and no filter, a
PATH and the wrapper directory, and no loop. Texts in C hold no NUL. -/
structure Ready (env : WrapperEnv) : Prop where
  bypass : env.bypassed = false
  filter : isSet env.filter = false
  path : isSet env.path = true
  mypath : isSet env.mypath = true
  noloop : env.looping = false
  insert : nul ∉ env.insert.getD []
  remove : nul ∉ env.remove.getD []
  append : nul ∉ env.append.getD []

def rewritten (w : CmdWrapper) (env : WrapperEnv) (cmd : Str) (args : List Str) : List Str :=
  rewriteArgs w (env.insert.getD []) (env.remove.getD []) (env.append.getD []) cmd args

theorem Ready.clean_eq {env : WrapperEnv} (h : Ready env) :
    env.clean = { env with
      others := cleanenv ':' env.others
      insert := cleanenv ' ' env.insert
      remove := cleanenv ' ' env.remove
      append := cleanenv ' ' env.append
      filter := cleanenv '|' env.filter } := by
  simp [WrapperEnv.clean, h.bypass]

theorem Ready.filter_off {env : WrapperEnv} (h : Ready env) (w : CmdWrapper) (done : Option Str)
    (work : MainWork) : applyFilter w (env.clean.setDone done).filter work = some work := by
  have hempty : env.filter.getD [] = [] := by simpa [isSet] using h.filter
  have hfilter : (env.clean.setDone done).filter = some [] := by
    simp [WrapperEnv.setDone, h.clean_eq, cleanenv_eq, hempty]
  simp [applyFilter, hfilter, isSet]

theorem mainWork_clean (w : CmdWrapper) {env : WrapperEnv} (h : Ready env) (done other : Option Str)
    (cmd : Str) (args : List Str) :
    (mainWork w (env.clean.setDone done) other cmd args).vector =
        (if isSet other then [other.getD []] else []) ++ rewritten w env cmd args ∧
      (mainWork w (env.clean.setDone done) other cmd args).newargv.close = true := by
  have hne : nul ≠ ' ' := by decide
  have hvars : (env.clean.setDone done).insert = cleanenv ' ' env.insert ∧
      (env.clean.setDone done).remove = cleanenv ' ' env.remove ∧
      (env.clean.setDone done).append = cleanenv ' ' env.append := by
    simp [WrapperEnv.setDone, h.clean_eq]
  simp only [cleanenv_eq] at hvars
  obtain ⟨hvector, hok⟩ := mainWork_spec w hvars.1 hvars.2.1 hvars.2.2 (not_mem_cleaned h.insert hne)
    (not_mem_cleaned h.remove hne) (not_mem_cleaned h.append hne) other cmd args
  refine ⟨?_, hok.close⟩
  simp only [hvector, rewritten, rewriteArgs, itemValues, items, tokens_cleaned]

/-- The two ways main ends behind the extraction of the next external wrapper. -/
theorem wrapCommand_spec (w : CmdWrapper) {env : WrapperEnv} (h : Ready env) {next : NextOther}
    (hnext : nextOther env.clean.others env.othersDone = some next) (cmd : Str) (args : List Str) :
    wrapCommand w env cmd args =
      if isSet next.other then
        .other ⟨env.clean.setDone next.othersDone, next.other.getD [] :: rewritten w env cmd args,
          true, next.fits⟩
      else
        .command ⟨(env.clean.setDone next.othersDone).forCommand, rewritten w env cmd args, true,
          next.fits⟩ := by
  have hdone : env.clean.othersDone = env.othersDone := by simp [h.clean_eq]
  obtain ⟨hvector, hclose⟩ := mainWork_clean w h next.othersDone next.other cmd args
  have hset : (isSet (env.clean.setDone next.othersDone).path &&
      isSet (env.clean.setDone next.othersDone).mypath) = true := by
    simp [WrapperEnv.setDone, h.clean_eq, h.path, h.mypath]
  have hloop : (env.clean.setDone next.othersDone).looping = false := by
    simpa [WrapperEnv.setDone, h.clean_eq, WrapperEnv.looping] using h.noloop
  simp only [wrapCommand, hdone, hnext, h.filter_off, launch, hvector, hclose, hset, hloop]
  cases isSet next.other <;> rfl

/-- Without external wrappers the real command gets the rewritten command line, and no write
goes past the end of `newargv`. -/
theorem execvp_vector (w : CmdWrapper) (env : WrapperEnv) (h : Ready env)
    (hothers : isSet env.others = false) (argv0 : Str) (args : List Str) (cmd : Str)
    (args' : List Str) (hline : commandLine w argv0 args = some (cmd, args')) :
    ∃ exec, cmdWrapperMain w env argv0 args = .command exec ∧ exec.argvFits = true ∧
      exec.vector =
        cmd :: (((items (env.insert.getD [])).map (evalItem w (cmd :: args'))).filter (· != []) ++
          args'.filter (fun arg =>
            !(((items (env.remove.getD [])).map (evalItem w (cmd :: args'))).filter (· != [])).any
              fun item => w.fnmatch item arg) ++
          ((items (env.append.getD [])).map (evalItem w (cmd :: args'))).filter (· != [])) := by
  have hempty : env.others.getD [] = [] := by simpa [isSet] using hothers
  have hnext : nextOther env.clean.others env.othersDone =
      some { other := some [], othersDone := env.othersDone, fits := true } := by
    simp [h.clean_eq, cleanenv_eq, hempty, nextOther, isSet]
  have hmain : cmdWrapperMain w env argv0 args =
      .command ⟨(env.clean.setDone env.othersDone).forCommand, rewritten w env cmd args', true, true⟩ := by
    rw [cmdWrapperMain, hline]
    exact wrapCommand_spec w h hnext cmd args'
  exact ⟨_, hmain, rfl, rfl⟩

def sampleWrapper : CmdWrapper :=
  { myname := "cmd_wrapper".toList, fnmatch := fun pattern s => pattern == s, sh := fun _ input => input }

def sampleEnv (others : Option Str) : WrapperEnv :=
  { bypass := none, others, othersDone := none, insert := some "-O2 -c?-pipe:-s -s?-x".toList
    remove := some "-g".toList, append := some "-lm".toList, filter := none
    path := some "/wrapper:/bin".toList, mypath := some "/wrapper".toList, noloop := none }

theorem sampleEnv_ready (others : Option Str) : Ready (sampleEnv others) :=
  ⟨rfl, rfl, rfl, rfl, rfl, (by decide : nul ∉ "-O2 -c?-pipe:-s -s?-x".toList),
    (by decide : nul ∉ "-g".toList), (by decide : nul ∉ "-lm".toList)⟩

theorem execvp_vector_sample :
    ∃ exec, cmdWrapperMain sampleWrapper (sampleEnv none) "/usr/bin/gcc".toList
        ["-c".toList, "-g".toList, "a.c".toList] = .command exec ∧ exec.argvFits = true ∧
      exec.vector = ["gcc".toList, "-O2".toList, "-pipe".toList, "-c".toList, "a.c".toList,
      "-lm".toList] := by
  obtain ⟨exec, hmain, hfits, hvector⟩ := execvp_vector sampleWrapper (sampleEnv none)
    (sampleEnv_ready none) rfl "/usr/bin/gcc".toList ["-c".toList, "-g".toList, "a.c".toList]
    "gcc".toList ["-c".toList, "-g".toList, "a.c".toList] (by decide +kernel)
  exact ⟨exec, hmain, hfits, hvector.trans (by decide +kernel)⟩

end T2SDE
