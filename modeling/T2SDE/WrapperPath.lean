import T2SDE.Lib.Joined
import T2SDE.WrapperMain

namespace T2SDE

open Text CString

/-- The list without the entries that are the wrapper directory. -/
def withoutDir (path wrdir : Str) : Str := [':'].intercalate ((path.splitOn ':').filter (· != wrdir))

section Loop

variable {wrdir : Str}

theorem pathLoop_token {mem : Str} {save : Nat} {t : Token} (ht : strtok ':' mem save = some t)
    (fuel : Nat) {done : List Str} (hdone : [] ∉ done) :
    pathLoop wrdir (fuel + 1) mem save ([':'].intercalate done) =
      pathLoop wrdir fuel t.mem t.save
        ([':'].intercalate (done ++ [strAt t.mem t.tok].filter (· != wrdir))) := by
  simp only [pathLoop, ht]
  by_cases hdir : strAt t.mem t.tok = wrdir
  · simp [hdir]
  · have hkeep : [strAt t.mem t.tok].filter (· != wrdir) = [strAt t.mem t.tok] := by
      simpa using hdir
    rw [if_pos hdir, hkeep]
    by_cases hne : done = []
    · subst hne
      simp [List.intercalate]
    · rw [if_pos (intercalate_ne_nil hdone hne), intercalate_concat ':' hne, List.append_assoc]
      rfl

theorem pathLoop_view {s : Str} {ws : List Str} (hv : TokenView (· == ':') s ws) (hnul : nul ∉ s)
    (pre : Str) {fuel : Nat} (hfuel : ws.length ≤ fuel) {done : List Str} (hdone : [] ∉ done) :
    pathLoop wrdir fuel (pre ++ strcpy s) pre.length ([':'].intercalate done) =
      [':'].intercalate (done ++ ws.filter (· != wrdir)) := by
  induction hv generalizing pre fuel done with
  | blank hs =>
    have hend := strtok_blank (by decide : ':' ≠ nul) hs pre
    cases fuel with
    | zero => simp [pathLoop]
    | succ fuel => simp [pathLoop, hend]
  | @last seps tok hs hne ht =>
    have htok : ':' ∉ tok := fun h => by simpa using ht ':' h
    have hfree : nul ∉ tok := fun h => hnul (List.mem_append_right seps h)
    have hnext := strtok_last hs hne htok hfree pre
    have hat := strAt_of (pre ++ seps) [] hfree
    obtain ⟨fuel, rfl⟩ : ∃ k, fuel = k + 1 := Nat.exists_eq_succ_of_ne_zero (by simp at hfuel; omega)
    rw [pathLoop_token hnext fuel hdone, hat]
    -- the next call of strtok finds the end
    have hend : strtok ':' (pre ++ seps ++ tok ++ strcpy []) (pre ++ seps ++ tok).length = none :=
      strtok_blank (by decide) (by simp) _
    have hmem : pre ++ seps ++ tok ++ strcpy [] = pre ++ seps ++ (tok ++ [nul]) := by simp [strcpy]
    rw [hmem] at hend
    cases fuel with
    | zero => rfl
    | succ fuel => simp only [pathLoop, hend]
  | @next seps tok rest d ws hs hne ht hd _ ih =>
    obtain rfl : d = ':' := by simpa using hd
    have htok : ':' ∉ tok := fun h => by simpa using ht ':' h
    have hfree : nul ∉ tok := fun h => hnul (by simp [h])
    have hrest : nul ∉ rest := fun h => hnul (by simp [h])
    have hnext := strtok_next (by decide : ':' ≠ nul) hs hne htok hfree pre rest
    have hat := strAt_of (pre ++ seps) (strcpy rest) hfree
    obtain ⟨fuel, rfl⟩ : ∃ k, fuel = k + 1 := Nat.exists_eq_succ_of_ne_zero (by simp at hfuel; omega)
    have hmem : pre ++ seps ++ (tok ++ nul :: strcpy rest) = pre ++ seps ++ tok ++ [nul] ++ strcpy rest := by
      simp
    have hlen : ws.length ≤ fuel := by simpa using hfuel
    have hdone' : [] ∉ done ++ [tok].filter (· != wrdir) := by
      intro h
      rcases List.mem_append.mp h with h | h
      · exact hdone h
      · exact hne (List.mem_singleton.mp (List.mem_of_mem_filter h)).symm
    rw [pathLoop_token hnext fuel hdone, hat]
    simp only [hmem]
    rw [ih hrest _ hlen hdone', List.append_assoc, ← List.filter_append, List.singleton_append]

end Loop

theorem newPath_eq {path : Str} (hnul : nul ∉ path) (wrdir : Str) :
    newPath path wrdir =
    [':'].intercalate (((path.splitOn ':').filter (!·.isEmpty)).filter (· != wrdir)) := by
  have hv := tokens_view (· == ':') path
  rw [← tokens_eq_filter]
  exact pathLoop_view hv hnul [] (length_tokens_le hv) List.not_mem_nil

/-- The new PATH fits into the buffer that has the size of the old one. -/
theorem newPath_fits {path : Str} (hnul : nul ∉ path) (wrdir : Str) :
    (newPath path wrdir).length ≤ path.length := by
  have hsub : (((path.splitOn ':').filter (!·.isEmpty)).filter (· != wrdir)).Sublist (path.splitOn ':') :=
    List.filter_sublist.trans List.filter_sublist
  have hle := length_joined_le ':' hsub
  rwa [← newPath_eq hnul, List.intercalate_splitOn] at hle

theorem newPath_iff {path wrdir : Str} (hnul : nul ∉ path) (hdir : wrdir ≠ []) :
    newPath path wrdir = withoutDir path wrdir ↔
      [] ∉ path.splitOn ':' ∨ (path.splitOn ':').filter (· != wrdir) = [[]] := by
  have hswap : ((path.splitOn ':').filter (!·.isEmpty)).filter (· != wrdir) =
      ((path.splitOn ':').filter (· != wrdir)).filter (!·.isEmpty) := by
    rw [List.filter_filter, List.filter_filter]
    exact List.filter_congr fun x _ => Bool.and_comm _ _
  have hmem : [] ∈ (path.splitOn ':').filter (· != wrdir) ↔ [] ∈ path.splitOn ':' := by
    simp [List.mem_filter, hdir.symm]
  rw [newPath_eq hnul, hswap, withoutDir, joined_nonempty_iff, hmem]

section Run

variable {w : CmdWrapper} {env : WrapperEnv}

theorem clean_path (env : WrapperEnv) : env.clean.path = env.path ∧ env.clean.mypath = env.mypath := by
  unfold WrapperEnv.clean
  split <;> exact ⟨rfl, rfl⟩

theorem launch_command {next : NextOther} {work : MainWork} {exec : Exec}
    (h : launch env next work = .command exec) :
    isSet env.mypath = true ∧ exec.env = env.forCommand := by
  unfold launch at h
  split at h
  · cases h
  · split at h
    · cases h
    · next hset =>
      split at h
      · cases h
      · cases h
        simp only [Bool.not_eq_true', Bool.not_eq_false, Bool.and_eq_true] at hset
        exact ⟨hset.2, rfl⟩

theorem wrapCommand_path {cmd : Str} {args : List Str} {exec : Exec}
    (h : wrapCommand w env cmd args = .command exec) :
    env.mypath.getD [] ≠ [] ∧ exec.env.path = some (newPath (env.path.getD []) (env.mypath.getD [])) := by
  obtain ⟨hpath, hmypath⟩ := clean_path env
  unfold wrapCommand at h
  split at h
  · cases h
  · dsimp only at h
    split at h
    · cases h
    · obtain ⟨hset, henv⟩ := launch_command h
      rw [henv]
      simp only [WrapperEnv.setDone, WrapperEnv.forCommand, hpath, hmypath, isSet] at hset ⊢
      exact ⟨by simpa using hset, trivial⟩

/-- The PATH of the real command is the old one without the wrapper directory as long as it has no
empty entry, or nothing but one empty entry beside the wrapper directory. -/
theorem command_path_iff (w : CmdWrapper) (env : WrapperEnv) (argv0 : Str) (args : List Str) (exec : Exec)
    (hrun : cmdWrapperMain w env argv0 args = .command exec) (hnul : nul ∉ env.path.getD []) :
    exec.env.path = some (withoutDir (env.path.getD []) (env.mypath.getD [])) ↔
      [] ∉ (env.path.getD []).splitOn ':' ∨
        ((env.path.getD []).splitOn ':').filter (· != env.mypath.getD []) = [[]] := by
  unfold cmdWrapperMain at hrun
  split at hrun
  · cases hrun
  · obtain ⟨hdir, hpath⟩ := wrapCommand_path hrun
    rw [hpath, Option.some.injEq, newPath_iff hnul hdir]

end Run

def pathEnv (path : Str) : WrapperEnv := { sampleEnv none with path := some path }

theorem pathEnv_run {path : Str} (hpath : isSet (some path) = true) :
    ∃ exec, cmdWrapperMain sampleWrapper (pathEnv path) "/usr/bin/gcc".toList ["a.c".toList] = .command exec ∧
      exec.env.path = some (newPath path "/wrapper".toList) := by
  have hsample := sampleEnv_ready none
  have hready : Ready (pathEnv path) :=
    ⟨rfl, rfl, hpath, rfl, rfl, hsample.insert, hsample.remove, hsample.append⟩
  have hnext : nextOther (pathEnv path).clean.others (pathEnv path).othersDone =
      some { other := some [], othersDone := none, fits := true } := rfl
  have hspec := wrapCommand_spec sampleWrapper hready hnext "gcc".toList ["a.c".toList]
  exact ⟨_, hspec, rfl⟩

theorem command_path_bin :
    ∃ exec, cmdWrapperMain sampleWrapper (pathEnv "/bin:/wrapper:/usr/bin".toList) "/usr/bin/gcc".toList
        ["a.c".toList] = .command exec ∧ exec.env.path = some "/bin:/usr/bin".toList := by
  obtain ⟨exec, hrun, _⟩ := pathEnv_run (rfl : isSet (some "/bin:/wrapper:/usr/bin".toList) = true)
  refine ⟨exec, hrun, ?_⟩
  have hiff := command_path_iff sampleWrapper (pathEnv "/bin:/wrapper:/usr/bin".toList)
    "/usr/bin/gcc".toList ["a.c".toList] exec hrun (by decide +kernel)
  rw [hiff.mpr (.inl (by decide +kernel))]
  decide +kernel

/-- The empty entry, which means the current directory, is lost. -/
theorem command_path_empty :
    ∃ exec, cmdWrapperMain sampleWrapper (pathEnv "/wrapper::/bin".toList) "/usr/bin/gcc".toList
        ["a.c".toList] = .command exec ∧ exec.env.path = some "/bin".toList ∧
      withoutDir "/wrapper::/bin".toList "/wrapper".toList = ":/bin".toList := by
  obtain ⟨exec, hrun, hpath⟩ := pathEnv_run (rfl : isSet (some "/wrapper::/bin".toList) = true)
  exact ⟨exec, hrun, hpath.trans (by decide +kernel), by decide +kernel⟩

end T2SDE
