import T2SDE.CreatePkgQueue

namespace T2SDE

open Text Awk

structure Job where
  stagelevel : Nat
  pkgline : Str
  deriving DecidableEq

def Job.repository (j : Job) : Str := field (split j.pkgline) 4
def Job.package (j : Job) : Str := field (split j.pkgline) 5

/-- The line is switched on and its stages field holds the digit of the stage. -/
def enabled (stagelevel : Nat) (pkgline : Str) : Bool :=
  field (split pkgline) 1 == "X".toList && index (field (split pkgline) 2) (digits stagelevel)

/-- The enabled pairs in (stage, list position) order. -/
def schedule (packagesFile : List Str) : List Job :=
  (List.range 10).flatMap fun s => (packagesFile.filter (enabled s)).map (Job.mk s)

theorem mem_schedule {packagesFile : List Str} {j : Job} :
    j ∈ schedule packagesFile ↔
      j.stagelevel < 10 ∧ j.pkgline ∈ packagesFile ∧ enabled j.stagelevel j.pkgline := by
  obtain ⟨s, line⟩ := j
  simp [schedule, and_assoc]

def QueueEnv.path (env : QueueEnv) (j : Job) (ext : String) : Str :=
  logPath env.logdir j.stagelevel j.repository j.package ext.toList

def QueueEnv.finished (env : QueueEnv) (j : Job) : Bool :=
  env.readable (env.path j "log") || env.readable (env.path j "err")

def QueueEnv.missing (env : QueueEnv) (j : Job) : Bool :=
  !env.finished j || (env.nobrokendeps && env.readable (env.path j "err"))

/-- `check_package` behind its test whether the pair is enabled. -/
def checkJob (env : QueueEnv) (g : QueueVars) (j : Job) : QueueVars :=
  if !env.finished j then checkMissing env j.stagelevel j.pkgline j.package (env.path j "out") g
  else if env.missing j then { g with notPresent := g.notPresent ++ pad j.package }
  else g

def stepJob (env : QueueEnv) (g : QueueVars) (j : Job) : QueueVars :=
  if g.exited then g else checkJob env g j

theorem checkPackage_eq (env : QueueEnv) (stagelevel : Nat) (g : QueueVars) (pkgline : Str) :
    checkPackage env stagelevel g pkgline =
      if enabled stagelevel pkgline then checkJob env g ⟨stagelevel, pkgline⟩ else g := by
  by_cases he : enabled stagelevel pkgline = true
  · have hx : (field (split pkgline) 1 != "X".toList ||
        !index (field (split pkgline) 2) (digits stagelevel)) = false := by
      simpa [enabled, bne, ← Bool.not_and] using he
    simp only [checkPackage, hx, he, checkJob, QueueEnv.missing, QueueEnv.finished, QueueEnv.path,
      Job.package, Job.repository, if_true, Bool.not_or, Bool.false_eq_true, if_false]
    generalize env.readable (logPath env.logdir stagelevel _ _ "log".toList) = log
    generalize env.readable (logPath env.logdir stagelevel _ _ "err".toList) = err
    cases log <;> cases err <;> rfl
  · have hx : (field (split pkgline) 1 != "X".toList ||
        !index (field (split pkgline) 2) (digits stagelevel)) = true := by
      have he : enabled stagelevel pkgline = false := by simpa using he
      simpa only [enabled, bne, ← Bool.not_and, Bool.not_eq_true'] using he
    simp only [checkPackage, hx, he, if_true, Bool.false_eq_true, if_false]

theorem readPackages_eq (env : QueueEnv) (g : QueueVars) (stagelevel : Nat) :
    readPackages env g stagelevel =
      ((env.packagesFile.filter (enabled stagelevel)).map (Job.mk stagelevel)).foldl
        (stepJob env) g := by
  rw [readPackages, List.foldl_map, List.foldl_filter]
  congr 1
  funext g line
  rw [checkPackage_eq]
  by_cases hx : g.exited = true
  · simp [stepJob, hx]
  · simp [stepJob, hx]

/-- The ten passes over the file are one pass over the enabled pairs. -/
theorem createPkgQueue_eq (env : QueueEnv) :
    createPkgQueue env = ((schedule env.packagesFile).foldl (stepJob env) queueInit).out := by
  have hpass : readPackages env = fun g s =>
      ((env.packagesFile.filter (enabled s)).map (Job.mk s)).foldl (stepJob env) g := by
    funext g s
    exact readPackages_eq env g s
  rw [createPkgQueue, schedule, List.foldl_flatMap, hpass]

/-- The names noted while the pairs of a prefix were read. -/
def notPresentOf (env : QueueEnv) (before : List Job) : Str :=
  (before.filter env.missing).flatMap fun j => pad j.package

def pending (env : QueueEnv) (stage : Nat) (before : List Job) : Bool :=
  before.any fun j => !env.finished j && decide (j.stagelevel < stage)

/-- The variables after a prefix of the schedule, as a function of the files. -/
structure Scanned (env : QueueEnv) (before : List Job) (g : QueueVars) : Prop where
  notPresent : g.notPresent = notPresentOf env before
  stage0 : g.stage0NotPresent = pending env 1 before
  stage01 : g.stage01NotPresent = pending env 2 before
  stage9 : g.stage9NoDeps = if pending env 9 before then .str "x".toList else .num 9
  database : ∀ package, g.database package = none

/-- The pair is printed when the pairs of the prefix come before it. -/
def emitted (env : QueueEnv) (before : List Job) (j : Job) : Bool :=
  !env.finished j && !env.readable (env.path j "out") &&
    !index (notPresentOf env before) (pad j.package) &&
    !(j.stagelevel == 0 && notPresentOf env before != []) &&
    !(decide (j.stagelevel > 0) && pending env 1 before) &&
    !(decide (j.stagelevel ≥ 2) && pending env 2 before) &&
    !(notPresentOf env before != [] && (decide (j.stagelevel < 9) || pending env 9 before ||
      j.stagelevel != 9)) &&
    !(j.package == "t2-debug".toList && notPresentOf env before != [])

/-- The printed text of a pair; the empty dependency database leaves the defaults. -/
def Job.line (j : Job) : Str := queueLine j.stagelevel "0".toList "60".toList j.pkgline

def jobTexts (out : List QueueLine) : List Str :=
  out.filterMap fun
    | .job text => some text
    | .debug _ => none

@[simp] theorem jobTexts_append (xs ys : List QueueLine) :
    jobTexts (xs ++ ys) = jobTexts xs ++ jobTexts ys := by
  simp [jobTexts]

@[simp] theorem jobTexts_job (text : Str) : jobTexts [.job text] = [text] := rfl
@[simp] theorem jobTexts_debug (text : Str) : jobTexts [.debug text] = [] := rfl

theorem notPresentOf_append (env : QueueEnv) (before : List Job) (j : Job) :
    notPresentOf env (before ++ [j]) =
      notPresentOf env before ++ if env.missing j then pad j.package else [] := by
  by_cases hm : env.missing j = true <;> simp [notPresentOf, List.filter_append, hm]

theorem pending_append (env : QueueEnv) (stage : Nat) (before : List Job) (j : Job) :
    pending env stage (before ++ [j]) =
      (pending env stage before || (!env.finished j && decide (j.stagelevel < stage))) := by
  simp [pending]

theorem notPresentOf_eq_nil {env : QueueEnv} {before : List Job} :
    notPresentOf env before = [] ↔ ∀ j ∈ before, env.missing j = false := by
  constructor
  · intro h j hj
    by_contra hm
    have hp := List.flatMap_eq_nil_iff.mp h j (List.mem_filter.mpr ⟨hj, by simpa using hm⟩)
    exact pad_ne_nil j.package hp
  · intro h
    have hf : before.filter env.missing = [] := by
      simpa [List.filter_eq_nil_iff] using h
    simp [notPresentOf, hf]

end T2SDE
