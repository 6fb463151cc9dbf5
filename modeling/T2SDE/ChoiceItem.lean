import T2SDE.ExpertBlocks

namespace T2SDE.Config

open Text

section Choice

variable (expand : Env → Str → Str)

/-- The loop of the subshell over the options: what is left of `dval` and of `name`. -/
def optionLoop (value : Str) : Str → Str → List Str → Str × Str
  | dval, name, [] => (dval, name)
  | dval, name, option :: options =>
    optionLoop value (if dval = option then [] else dval) (if value = option then [] else name) options

/-- `choice`, with the commands that the subshell prints for `eval`: each unsets a variable that
still has its value. -/
def choiceEval (name default : Str) (options : List Str) (s : Shell) : Shell :=
  let left := optionLoop (s.env name) default name options
  let defval := if left.1 ≠ [] then [] else default
  let s := if left.2 ≠ [] then s.assign name [] else s
  setData expand name (if defval ≠ [] then defval else options.headD []) s

variable {expand} {s : Shell} {name default value dval : Str} {options : List Str}

theorem optionLoop_name (hname : name ≠ []) :
    (optionLoop value dval name options).2 = [] ↔ value ∈ options := by
  induction options generalizing dval name with
  | nil => simp [optionLoop, hname]
  | cons option options ih =>
    rw [optionLoop, List.mem_cons]
    by_cases hv : value = option
    · rw [if_pos hv]
      refine iff_of_true ?_ (.inl hv)
      have hempty : ∀ dval options, (optionLoop value dval [] options).2 = [] := by
        intro dval options
        induction options generalizing dval with
        | nil => rfl
        | cons option options ih => rw [optionLoop, ite_self, ih]
      exact hempty _ _
    · rw [if_neg hv, ih hname]
      exact (or_iff_right hv).symm

theorem optionLoop_dval : (optionLoop value dval name options).1 = [] ↔ dval = [] ∨ dval ∈ options := by
  induction options generalizing dval name with
  | nil => simp [optionLoop]
  | cons option options ih =>
    rw [optionLoop, ih, List.mem_cons]
    by_cases hd : dval = option
    · simp [hd]
    · simp [hd]

/-- The commands of the subshell have the same effect as looking the two values up in the list. -/
theorem choiceEval_eq (hname : name ≠ []) (expand : Env → Str → Str) (default : Str) (options : List Str)
    (s : Shell) :
    choiceEval expand name default options s = choice expand name default options s := by
  rw [choiceEval, choice]
  have hdval : (if (optionLoop (s.env name) default name options).1 ≠ [] then [] else default) =
      if default = [] ∨ default ∈ options then default else [] := by
    by_cases h : default = [] ∨ default ∈ options
    · rw [if_neg (not_not.mpr (optionLoop_dval.mpr h)), if_pos h]
    · rw [if_pos fun hnil => h (optionLoop_dval.mp hnil), if_neg h]
  have hvalue : (if (optionLoop (s.env name) default name options).2 ≠ [] then s.assign name [] else s) =
      if s.env name ∈ options then s else s.assign name [] := by
    by_cases h : s.env name ∈ options
    · rw [if_neg (not_not.mpr ((optionLoop_name hname).mpr h)), if_pos h]
    · rw [if_pos fun hnil => h ((optionLoop_name hname).mp hnil), if_neg h]
  rw [hdval, hvalue]

theorem listedDefault_eq (hoptions : ∀ option ∈ options, option ≠ []) :
    listedDefault default options = if default ∈ options then default else options.headD [] := by
  rw [listedDefault]
  by_cases hmem : default ∈ options
  · simp [hmem, hoptions default hmem]
  · rw [if_neg hmem]
    by_cases hnil : default = []
    · simp [hnil]
    · simp [hnil, hmem]

theorem listedDefault_mem (hne : options ≠ []) (hoptions : ∀ option ∈ options, option ≠ []) :
    listedDefault default options ∈ options := by
  rw [listedDefault_eq hoptions]
  split_ifs with hmem
  · exact hmem
  · obtain ⟨option, rest, rfl⟩ := List.exists_cons_of_ne_nil hne
    exact List.mem_cons_self

theorem append_ne {front rest : Str} (n : Nat) (hfront : n < front.length)
    (hrest : name.length ≤ rest.length + n) :
    front ++ rest ≠ name := by
  intro h
  have hlength := congrArg List.length h
  rw [List.length_append] at hlength
  omega

theorem presetName_ne (name : Str) : presetName name ≠ name := by
  unfold presetName
  split
  · refine append_ne "SDECFG_".length (by decide) ?_
    rw [List.length_drop]
    exact Nat.le_add_of_sub_le (Nat.le_refl _)
  · exact append_ne 0 (by decide) (Nat.le_refl _)

theorem options_of_all (h : (options.all fun option => option != [] && option.all fun c =>
    !(['$', '`', '"', '\\', '}'].contains c)) = true) :
    ∀ option ∈ options, option ≠ [] ∧ Literal option := by
  intro option hmem
  have hoption := List.all_eq_true.mp h option hmem
  rw [Bool.and_eq_true, bne_iff_ne] at hoption
  exact ⟨hoption.1, not_mem_of_all hoption.2⟩

/-- After a choice its variable has one of the options: in the menu the value that it had, if that
is one of them, else the default, if that is one, else the first. -/
theorem choice_listed (hexpand : ∀ env text, Literal text → expand env text = text) (hname : name ≠ [])
    (default : Str)
    (hne : options ≠ []) (hoptions : ∀ option ∈ options, option ≠ [] ∧ Literal option)
    (hpreset : s.env (presetName name) = []) :
    let t := choiceEval expand name default options s
    t.env name ∈ options ∧
      (t.menumode ≠ 0 → t.env name = if s.env name ∈ options then s.env name else
        if default ∈ options then default else options.headD []) ∧
      (t.menumode = 0 → t.env name = if default ∈ options then default else options.headD []) := by
  intro t
  have hwords : ∀ option ∈ options, option ≠ [] := fun option hmem => (hoptions option hmem).1
  have hmem : listedDefault default options ∈ options := listedDefault_mem hne hwords
  have hliteral : ∀ env, expand env (listedDefault default options) = listedDefault default options :=
    fun env => hexpand env _ (hoptions _ hmem).2
  have ht : t = setData expand name (listedDefault default options) (s.keepListed name options) :=
    (choiceEval_eq hname expand default options s).trans (choice_eq expand name default options s)
  have hvalue : t.env name = (s.keepListed name options).choose expand name
    (listedDefault default options) := by
    rw [ht, setData_env, Function.update_self]
  have hmode : t.menumode = 0 ↔ (s.keepListed name options).shown = false := by
    rw [ht]
    exact setData_hidden
  have hchoose : t.env name = if (s.keepListed name options).shown then
      if (s.keepListed name options).env name ≠ [] then (s.keepListed name options).env name
        else listedDefault default options
      else listedDefault default options := by
    rw [hvalue, Shell.choose, keepListed_env (presetName_ne name), if_neg (not_not.mpr hpreset), hliteral]
  rw [ne_eq, hmode, hchoose, ← listedDefault_eq hwords]
  cases (s.keepListed name options).shown with
  | false => exact ⟨hmem, fun h => absurd rfl h, fun _ => rfl⟩
  | true =>
    rw [if_pos rfl, Shell.keepListed]
    by_cases hlisted : s.env name ∈ options
    · rw [if_pos hlisted, if_pos (hwords _ hlisted), if_pos hlisted]
      exact ⟨hlisted, fun _ => rfl, fun h => absurd h (by decide)⟩
    · have hunset : (s.assign name []).env name = [] := Function.update_self ..
      rw [if_neg hlisted, hunset, if_neg (not_not.mpr rfl), if_neg hlisted]
      exact ⟨hmem, fun _ => rfl, fun h => absurd h (by decide)⟩

def sampleOptions : List Str := ["flwrapper".toList, "strace".toList, "find".toList]

theorem choice_listed_flist :
    let t := choiceEval (fun _ text =>
    text) "SDECFG_FLIST".toList "strace".toList sampleOptions (start fun _ => [])
    t.env "SDECFG_FLIST".toList ∈ sampleOptions ∧
      (t.menumode ≠ 0 → t.env "SDECFG_FLIST".toList =
        if (start fun _ => []).env "SDECFG_FLIST".toList ∈ sampleOptions then
        (start fun _ => []).env "SDECFG_FLIST".toList else
        if "strace".toList ∈ sampleOptions then "strace".toList else sampleOptions.headD []) ∧
      (t.menumode = 0 → t.env "SDECFG_FLIST".toList =
        if "strace".toList ∈ sampleOptions then "strace".toList else sampleOptions.headD []) :=
  choice_listed (fun _ _ _ => rfl) (by decide) "strace".toList (by decide) (options_of_all (by decide)) rfl

end Choice

end T2SDE.Config
