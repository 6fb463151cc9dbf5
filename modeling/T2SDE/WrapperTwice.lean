import T2SDE.WrapperChain

namespace T2SDE

open Text CString

theorem rewritten_restart (w : CmdWrapper) {env : WrapperEnv} (h : Ready env) (done : Option Str)
    (cmd : Str) (args : List Str) :
    rewritten w (env.clean.setDone done) cmd args = rewritten w env cmd args := by
  simp only [rewritten, rewriteArgs, itemValues, items, WrapperEnv.setDone, h.clean_eq, cleanenv_eq,
    Option.getD_some, tokens_cleaned]

def Unconditional (value : Option Str) : Prop := ∀ item ∈ items (value.getD []), '?' ∉ item

theorem itemValues_unconditional (w : CmdWrapper) (argv : List Str) {value : Option Str}
    (h : Unconditional value) : itemValues w argv (value.getD []) = items (value.getD []) := by
  have hmap : (items (value.getD [])).map (evalItem w argv) = items (value.getD []) := by
    rw [List.map_congr_left (g := id) fun item hitem => by simp [evalItem, h item hitem], List.map_id]
  rw [itemValues, hmap, List.filter_eq_self]
  intro item hitem
  simpa using (mem_tokens hitem).1

def matched (w : CmdWrapper) (env : WrapperEnv) (word : Str) : Bool :=
  (items (env.remove.getD [])).any fun item => w.fnmatch item word

/-- Without conditional items a second rewriting changes nothing exactly when it removes all
that the first one has put in. -/
theorem rewritten_twice_iff (w : CmdWrapper) {env : WrapperEnv} (hi : Unconditional env.insert)
    (hr : Unconditional env.remove) (ha : Unconditional env.append) (cmd : Str) (args : List Str) :
    rewritten w env cmd (rewritten w env cmd args).tail = rewritten w env cmd args ↔
      ∀ word ∈ items (env.insert.getD []) ++ items (env.append.getD []), matched w env word = true := by
  have hone : ∀ args, rewritten w env cmd args = cmd :: (items (env.insert.getD []) ++
      args.filter (fun arg => !matched w env arg) ++ items (env.append.getD [])) := by
    intro args
    simp only [rewritten, rewriteArgs, itemValues_unconditional w _ hi, itemValues_unconditional w _ hr,
      itemValues_unconditional w _ ha, matched]
  rw [hone, hone, List.tail_cons, List.cons_inj_right, List.append_left_inj, List.append_right_inj,
    List.filter_append, List.filter_append, List.filter_filter]
  simp only [Bool.and_self]
  constructor
  · intro heq
    have hlen := congrArg List.length heq
    simp only [List.length_append] at hlen
    have hnil : (items (env.insert.getD []) ++ items (env.append.getD [])).filter
        (fun arg => !matched w env arg) = [] := by
      rw [← List.length_eq_zero_iff, List.filter_append, List.length_append]
      omega
    intro word hword
    simpa using List.filter_eq_nil_iff.mp hnil word hword
  · intro hall
    have hnil : ∀ words : List Str, (∀ word ∈ words, matched w env word = true) →
        words.filter (fun arg => !matched w env arg) = [] := by
      intro words hwords
      rw [List.filter_eq_nil_iff]
      intro word hword
      simp [hwords word hword]
    rw [hnil (items (env.insert.getD [])) fun word hword => hall word (by simp [hword]),
      hnil (items (env.append.getD [])) fun word hword => hall word (by simp [hword])]
    simp

/-- The vector the real command receives with a single external wrapper that just re-executes
its command line, and with none. -/
structure CommandVectors (w : CmdWrapper) (name : Str) (env : WrapperEnv) (argv0 : Str)
    (args : List Str) (behindWrapper direct : List Str) : Prop where
  behindWrapper : ∃ fuel, runChain w [name] fuel { env with others := some name } argv0 args =
    some [.wrapper name name true, .command behindWrapper]
  direct : ∃ exec, cmdWrapperMain w { env with others := none } argv0 args = .command exec ∧
    exec.vector = direct

theorem commandVectors (w : CmdWrapper) {name : Str} (hname : name ≠ [] ∧ ':' ∉ name ∧ nul ∉ name)
    {env : WrapperEnv} (h : Ready env) (hdone : env.othersDone = none) {argv0 cmd : Str}
    {args args' : List Str} (hline : commandLine w argv0 args = some (cmd, args'))
    (hcmd : cmd ≠ w.myname) :
    CommandVectors w name env argv0 args (rewritten w env cmd (rewritten w env cmd args').tail)
      (rewritten w env cmd args') := by
  have hwith : Ready { env with others := some name } :=
    ⟨h.bypass, h.filter, h.path, h.mypath, h.noloop, h.insert, h.remove, h.append⟩
  have hwithout : Ready { env with others := none } :=
    ⟨h.bypass, h.filter, h.path, h.mypath, h.noloop, h.insert, h.remove, h.append⟩
  constructor
  · have hrun := runChain_single hwith hname (by simp [joinNames, List.intercalate]) hdone hcmd hline 0
    rw [rewritten_restart w hwith] at hrun
    exact ⟨2, hrun⟩
  · have hnext : nextOther ({ env with others := none } : WrapperEnv).clean.others env.othersDone =
        some ⟨some [], none, true⟩ := by
      rw [hwithout.clean_eq, hdone]
      rfl
    exact ⟨_, cmdWrapperMain_command hwithout hline (by rfl) hnext, rfl⟩

/-- Behind an external wrapper the command line is rewritten a second time. Without conditional
items that changes nothing exactly when every word of INSERT and APPEND is matched by REMOVE. -/
theorem single_wrapper_rewrites_twice (w : CmdWrapper) (name : Str)
    (hname : name ≠ [] ∧ ':' ∉ name ∧ nul ∉ name) (env : WrapperEnv) (h : Ready env)
    (hdone : env.othersDone = none) (argv0 : Str) (args : List Str) (cmd : Str) (args' : List Str)
    (hline : commandLine w argv0 args = some (cmd, args')) (hcmd : cmd ≠ w.myname) :
    ∃ behindWrapper direct, CommandVectors w name env argv0 args behindWrapper direct ∧
      direct = rewritten w env cmd args' ∧ behindWrapper = rewritten w env cmd direct.tail ∧
      (Unconditional env.insert → Unconditional env.remove → Unconditional env.append →
        (behindWrapper = direct ↔
          ∀ word ∈ items (env.insert.getD []) ++ items (env.append.getD []), matched w env word = true)) :=
  ⟨_, _, commandVectors w hname h hdone hline hcmd, rfl, rfl,
    fun hi hr ha => rewritten_twice_iff w hi hr ha cmd args'⟩

theorem single_wrapper_rewrites_twice_sample :
    ∃ behindWrapper direct,
      CommandVectors sampleWrapper "ccache".toList (sampleEnv none) "gcc".toList ["a.c".toList]
        behindWrapper direct ∧
      direct = ["gcc".toList, "-O2".toList, "-s".toList, "a.c".toList, "-lm".toList] := by
  obtain ⟨behindWrapper, direct, hvectors, hdirect, _⟩ := single_wrapper_rewrites_twice sampleWrapper
    "ccache".toList (by decide) (sampleEnv none) (sampleEnv_ready none) rfl "gcc".toList ["a.c".toList]
    "gcc".toList ["a.c".toList] (by decide +kernel) (by decide)
  exact ⟨behindWrapper, direct, hvectors, hdirect.trans (by decide +kernel)⟩

/-- With INSERT set, the command behind a wrapper gets the inserted words twice. -/
theorem wrapper_inserts_twice :
    ∃ behindWrapper direct,
      CommandVectors sampleWrapper "ccache".toList (sampleEnv none) "gcc".toList ["a.c".toList]
        behindWrapper direct ∧
      behindWrapper ≠ direct := by
  have hline : commandLine sampleWrapper "gcc".toList ["a.c".toList] =
      some ("gcc".toList, ["a.c".toList]) := by decide +kernel
  exact ⟨_, _, commandVectors sampleWrapper (by decide) (sampleEnv_ready none) rfl hline (by decide),
    by decide +kernel⟩

end T2SDE
