import T2SDE.WrapperLoops

namespace T2SDE

open Text CString

/-- The command line the wrapper makes of `cmd args`. -/
def rewriteArgs (w : CmdWrapper) (insert remove append cmd : Str) (args : List Str) : List Str :=
  let argv := cmd :: args
  cmd :: (itemValues w argv insert ++
    args.filter (fun arg => !(itemValues w argv remove).any fun item => w.fnmatch item arg) ++
    itemValues w argv append)

theorem copyArgs_spec (w : CmdWrapper) (argv : List Str) {remove : Str} (hr : nul ∉ remove)
    (args : List Str) (newargv : NewArgv) :
    args.foldl (fun newargv arg => if removed w argv (some remove) arg then newargv
        else newargv.reallocIfNeeded.put (.string arg)) newargv =
      newargv.pushAll ((args.filter fun arg =>
        !(itemValues w argv remove).any fun item => w.fnmatch item arg).map .string) := by
  induction args generalizing newargv with
  | nil => rfl
  | cons arg args ih =>
    rw [List.foldl_cons, ih, removed_spec w argv hr]
    cases hm : (itemValues w argv remove).any fun item => w.fnmatch item arg with
    | true => simp [hm]
    | false => simp [hm, NewArgv.pushAll, NewArgv.push]

theorem initNewargv_ok (other : Option Str) (cmd : Str) : (initNewargv other cmd).Ok := by
  cases ho : isSet other <;> simp only [initNewargv, ho] <;> exact ⟨rfl, by simp [NewArgv.put]⟩

theorem initNewargv_elems (other : Option Str) (cmd : Str) :
    (initNewargv other cmd).elems =
      (if isSet other then [.string (other.getD [])] else []) ++ [.string cmd] := by
  cases ho : isSet other <;> simp [initNewargv, ho, NewArgv.put]

theorem MainWork.map_strings (work : MainWork) (l : List Str) :
    (l.map Pointer.string).map work.string = l := by
  rw [List.map_map]
  exact List.map_id l

/-- The main work hands on the rewritten command line, behind the name of the next external
wrapper if there is one, and never writes past the end of `newargv`. -/
theorem mainWork_spec (w : CmdWrapper) {env : WrapperEnv} {insert remove append : Str}
    (hi : env.insert = some insert) (hr : env.remove = some remove) (ha : env.append = some append)
    (hin : nul ∉ insert) (hrn : nul ∉ remove) (han : nul ∉ append) (other : Option Str) (cmd : Str)
    (args : List Str) :
    (mainWork w env other cmd args).vector =
        (if isSet other then [other.getD []] else []) ++ rewriteArgs w insert remove append cmd args ∧
      (mainWork w env other cmd args).newargv.Ok := by
  obtain ⟨ps, imem, hinsert, hivals⟩ :=
    copyVariable_spec w (cmd :: args) .insert hin (initNewargv other cmd)
  let copied := ((initNewargv other cmd).pushAll (ps.map .insert)).pushAll ((args.filter fun arg =>
    !(itemValues w (cmd :: args) remove).any fun item => w.fnmatch item arg).map .string)
  obtain ⟨qs, amem, happend, havals⟩ := copyVariable_spec w (cmd :: args) .append han copied
  have hwork : mainWork w env other cmd args =
      { newargv := copied.pushAll (qs.map .append), insert := imem, append := amem } := by
    simp only [mainWork, hi, hr, ha, hinsert, copyArgs_spec w (cmd :: args) hrn]
    rw [happend]
  rw [hwork]
  refine ⟨?_, (((initNewargv_ok other cmd).pushAll _).pushAll _).pushAll _⟩
  have hstrings : ∀ work : MainWork, work.insert = imem → work.append = amem →
      (ps.map Pointer.insert).map work.string = itemValues w (cmd :: args) insert ∧
        (qs.map Pointer.append).map work.string = itemValues w (cmd :: args) append := by
    rintro work rfl rfl
    exact ⟨by rw [← hivals, List.map_map]; rfl, by rw [← havals, List.map_map]; rfl⟩
  obtain ⟨hins, happ⟩ := hstrings ⟨copied.pushAll (qs.map .append), imem, amem⟩ rfl rfl
  simp only [MainWork.vector, NewArgv.pushAll_elems, copied, initNewargv_elems,
    List.map_append] at hins happ ⊢
  rw [hins, happ, MainWork.map_strings]
  cases ho : isSet other <;> simp [rewriteArgs, MainWork.string]

end T2SDE
