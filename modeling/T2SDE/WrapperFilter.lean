import T2SDE.Lib.Joined
import T2SDE.WrapperMain

namespace T2SDE

open Text CString

section Lines

variable {arg : Str}

theorem fileLines_parts (arg s : Str) : fileLines (arg ++ '\n' :: s) = arg.splitOn '\n' ++ fileLines s := by
  induction arg with
  | nil => rfl
  | cons c arg ih =>
    rw [List.cons_append, fileLines, List.splitOn_cons_eq_if_modifyHead, ih]
    obtain ⟨part, parts, hparts⟩ := List.exists_cons_of_ne_nil (List.splitOn_ne_nil '\n' arg)
    rw [hparts]
    by_cases hc : c = '\n'
    · simp [hc]
    · simp [hc]

/-- What the filter reads, and what is made of it when it comes back. -/
theorem fileLines_vector (vector : List Str) :
    fileLines (vector.flatMap fun arg => arg ++ ['\n']) = vector.flatMap (·.splitOn '\n') := by
  induction vector with
  | nil => rfl
  | cons arg vector ih =>
    rw [List.flatMap_cons, List.append_assoc, List.singleton_append, fileLines_parts, ih,
      List.flatMap_cons]

theorem outputLines_vector {vector : List Str} (hnul : ∀ arg ∈ vector, nul ∉ arg) :
    outputLines (vector.flatMap fun arg => arg ++ ['\n']) = vector.flatMap (·.splitOn '\n') := by
  rw [outputLines, fileLines_vector]
  refine (List.map_congr_left fun line hline => ?_).trans (List.map_id _)
  obtain ⟨arg, harg, hpart⟩ := List.mem_flatMap.mp hline
  have hfree : nul ∉ line := fun h => hnul arg harg ((mem_parts hpart).2 nul h)
  exact strAt_of [] [] hfree

/-- Only arguments without newlines are one line each. -/
theorem parts_eq_iff (vector : List Str) :
    vector.flatMap (·.splitOn '\n') = vector ↔ ∀ arg ∈ vector, '\n' ∉ arg := by
  constructor
  · intro h arg harg
    rw [← h] at harg
    obtain ⟨whole, _, hpart⟩ := List.mem_flatMap.mp harg
    exact (mem_parts hpart).1
  · intro h
    induction vector with
    | nil => rfl
    | cons arg vector ih =>
      rw [List.flatMap_cons, List.splitOn_eq_singleton (h arg List.mem_cons_self),
        ih fun x hx => h x (List.mem_cons_of_mem arg hx)]
      rfl

end Lines

theorem MainWork.reread (work : MainWork) (lines : List Str) :
    lines.foldl (fun newargv line => newargv.reallocIfNeeded.put (.string line))
        { work.newargv with elems := [] } =
      NewArgv.pushAll { work.newargv with elems := [] } (lines.map .string) := by
  rw [NewArgv.pushAll, List.foldl_map]
  rfl

/-- The main work of every run hands a vector to the filter that is not empty, and has room for its end. -/
theorem mainWork_filterable (w : CmdWrapper) (env : WrapperEnv) (hinsert : nul ∉ env.insert.getD [])
    (hremove : nul ∉ env.remove.getD []) (happend : nul ∉ env.append.getD []) (done other : Option Str)
    (cmd : Str) (args : List Str) :
    (mainWork w (env.clean.setDone done) other cmd args).newargv.Ok ∧
      (mainWork w (env.clean.setDone done) other cmd args).vector ≠ [] := by
  have hne : nul ≠ ' ' := by decide
  have hclean : ∀ value : Option Str, nul ∉ value.getD [] →
      ∃ s, cleanenv ' ' value = some s ∧ nul ∉ s := fun value hvalue =>
    ⟨_, cleanenv_eq ' ' value, not_mem_cleaned hvalue hne⟩
  have hempty : nul ∉ (some ([] : Str)).getD [] := List.not_mem_nil
  have hvars : (∃ s, (env.clean.setDone done).insert = some s ∧ nul ∉ s) ∧
      (∃ s, (env.clean.setDone done).remove = some s ∧ nul ∉ s) ∧
      ∃ s, (env.clean.setDone done).append = some s ∧ nul ∉ s := by
    unfold WrapperEnv.clean WrapperEnv.setDone
    split
    · exact ⟨hclean _ hempty, hclean _ hempty, hclean _ hempty⟩
    · exact ⟨hclean _ hinsert, hclean _ hremove, hclean _ happend⟩
  obtain ⟨⟨insert, hi, hin⟩, ⟨remove, hr, hrn⟩, append, ha, han⟩ := hvars
  obtain ⟨hvector, hok⟩ := mainWork_spec w hi hr ha hin hrn han other cmd args
  refine ⟨hok, ?_⟩
  rw [hvector, rewriteArgs]
  simp

/-- With a filter that copies its input, each argument comes back as its lines, and the vector stays as
it is if no argument has a newline. -/
theorem applyFilter_copies (w : CmdWrapper) (filter : Str) (work : MainWork) (hset : filter ≠ [])
    (hcat : ∀ input, w.sh filter input = input) (hok : work.newargv.Ok) (hne : work.vector ≠ [])
    (hnul : ∀ arg ∈ work.vector, nul ∉ arg) :
    ∃ filtered, applyFilter w (some filter) work = some filtered ∧ filtered.newargv.close = true ∧
      filtered.vector = work.vector.flatMap (·.splitOn '\n') ∧
      (filtered.vector = work.vector ↔ ∀ arg ∈ work.vector, '\n' ∉ arg) := by
  have hrun : isSet (some filter) = true := by simpa [isSet] using hset
  have hout : (work.vector.flatMap fun arg => arg ++ ['\n']) ≠ [] := by
    obtain ⟨arg, vector, hv⟩ := List.exists_cons_of_ne_nil hne
    simp [hv]
  have hempty : NewArgv.Ok { work.newargv with elems := [] } :=
    ⟨hok.inBounds, Nat.lt_of_le_of_lt (Nat.zero_le _) hok.room⟩
  have hlines := outputLines_vector hnul
  let filtered : MainWork := { work with
    newargv := NewArgv.pushAll { work.newargv with elems := [] }
      ((work.vector.flatMap (·.splitOn '\n')).map .string) }
  have hvector : filtered.vector = work.vector.flatMap (·.splitOn '\n') := by
    simp only [filtered, MainWork.vector, NewArgv.pushAll_elems, List.nil_append]
    exact MainWork.map_strings filtered _
  refine ⟨filtered, ?_, (hempty.pushAll _).close, hvector, by rw [hvector, parts_eq_iff]⟩
  simp only [applyFilter, hrun, Bool.not_true, Bool.false_eq_true, if_false, Option.getD_some, hcat,
    if_neg hout, hlines, MainWork.reread]
  rfl

def filterWork (args : List Str) : MainWork :=
  mainWork sampleWrapper ((sampleEnv none).clean.setDone none) none "gcc".toList args

theorem applyFilter_copies_sample :
    ∃ filtered, applyFilter sampleWrapper (some "cat".toList) (filterWork ["-c".toList, []]) = some filtered ∧
      filtered.vector = (filterWork ["-c".toList, []]).vector := by
  obtain ⟨hok, hne⟩ := mainWork_filterable sampleWrapper (sampleEnv none) (sampleEnv_ready none).insert
    (sampleEnv_ready none).remove (sampleEnv_ready none).append none none "gcc".toList ["-c".toList, []]
  obtain ⟨filtered, hfilter, _, _, hiff⟩ := applyFilter_copies sampleWrapper "cat".toList
    (filterWork ["-c".toList, []]) (by decide) (fun _ => rfl) hok hne (by decide +kernel)
  exact ⟨filtered, hfilter, hiff.mpr (by decide +kernel)⟩

/-- An argument with a newline comes back as two. -/
theorem applyFilter_newline :
    (applyFilter sampleWrapper (some "cat".toList) (filterWork ["-DTEXT=a\nb".toList])).map
        (·.vector.length) = some ((filterWork ["-DTEXT=a\nb".toList]).vector.length + 1) := by
  decide +kernel

end T2SDE
