import T2SDE.Lib.Text

namespace T2SDE.CleanupBuild

open Text

section Program

/-- What `${x/pat/}` leaves of a text. -/
def cutFirst (pat : Str) : Str → Str
  | [] => []
  | c :: s => if pat <+: c :: s then (c :: s).drop pat.length else c :: cutFirst pat s

/-- The test for a cache, `[ ${x/build\/ccache/} != $x ]`: it fails if the first word is gone. -/
def cacheTest (x : Str) : Bool :=
  let y := cutFirst "build/ccache".toList x
  y != [] && y != x

def mountDirs : List String := ["proc", "tmp", "TOOLCHAIN/loop", "TOOLCHAIN/config", "TOOLCHAIN/download"]

/-- A source directory, and whether a process holds its `build.pid`. -/
structure Source where
  name : Str
  active : Bool

/-- The directories and the arguments of a call. -/
structure Input where
  args : List Str
  sources : List Source
  builds : List Str
  /-- one word each, as the names are used without quotation marks -/
  words : ∀ x ∈ builds, ∀ c ∈ x, c ∉ [' ', '\t', '\n', '*', '?', '[', '\\']
  isDir : Str → Bool
  /-- the directories that are there after `umount` and `rmdir` -/
  remains : Str → Bool

/-- `"${y%/}"` -/
def stripSlash (y : Str) : Str := if y.getLast? = some '/' then y.dropLast else y

def chosen (args : List Str) (x : Str) : Bool := args.any fun y => stripSlash y = x

/-- The flag `delme` behind the loop over the source directories; true if it is not 0. -/
def sourceLoop (args : List Str) (delme : Bool) : List Source → Bool
  | [] => delme
  | x :: sources =>
    if args ≠ [] ∧ chosen args x.name = false then sourceLoop args false sources
    else sourceLoop args (!x.active) sources

inductive Outcome
  | removed
  | kept
  deriving DecidableEq

def busy (i : Input) (x : Str) : Bool := mountDirs.any fun y => i.remains (x ++ '/' :: y.toList)

/-- The loop over the build directories: what becomes of each. -/
def buildLoop (i : Input) (buildclean cacheclean : Bool) : Bool → List Str → List (Str × Outcome)
  | _, [] => []
  | delme, x :: builds =>
    if i.isDir x = false then buildLoop i buildclean cacheclean delme builds
    else if i.args ≠ [] ∧ chosen i.args x = false then
      (x, .kept) :: buildLoop i buildclean cacheclean false builds
    else
      let delme := if i.args ≠ [] then true else delme
      if cacheTest x = true then
        (x, if cacheclean then .removed else .kept) :: buildLoop i buildclean cacheclean delme builds
      else if buildclean = true then
        let delme := delme && !busy i x
        (x, if delme then .removed else .kept) :: buildLoop i buildclean cacheclean delme builds
      else (x, .kept) :: buildLoop i buildclean cacheclean delme builds

/-- `Cleanup`, with what the environment has for `delme`. -/
def cleanup (i : Input) (buildclean cacheclean delme : Bool) : List (Str × Outcome) :=
  buildLoop i buildclean cacheclean (sourceLoop i.args delme i.sources) i.builds

end Program

section Purpose

def IsCache (x : Str) : Prop := "build/ccache".toList <:+: x

instance (x : Str) : Decidable (IsCache x) := inferInstanceAs (Decidable ("build/ccache".toList <:+: x))

/-- Each build directory is treated by itself. -/
def Independent (i : Input) (cacheclean delme : Bool) : Prop :=
  ∀ o ∈ cleanup i true cacheclean delme, ¬IsCache o.1 →
    (o.2 = .removed ↔ (i.args = [] ∨ chosen i.args o.1 = true) ∧ busy i o.1 = false)

/-- The directories that `-build` looks into. -/
def dirs (i : Input) : List Str := i.builds.filter fun x => i.isDir x && !cacheTest x

/-- A directory that is to be removed without a selection. -/
def Idle (i : Input) (x : Str) : Prop := ¬IsCache x ∧ busy i x = false

/-- There is a selection, or the flag is set to begin with and no idle directory comes behind a busy one. -/
def Unspoilt (i : Input) (delme : Bool) : Prop :=
  i.args ≠ [] ∨ (dirs i).Pairwise (fun y x => Idle i x → busy i y = false) ∧
    ((∃ x ∈ dirs i, Idle i x) → sourceLoop i.args delme i.sources = true)

end Purpose

section Loop

variable {i : Input} {cacheclean delme : Bool} {x pat s : Str} {builds : List Str}

theorem cutFirst_of_not_infix (h : ¬pat <:+: s) : cutFirst pat s = s := by
  induction s with
  | nil => rfl
  | cons c s ih =>
    have hprefix : ¬pat <+: c :: s := fun hp => h hp.isInfix
    have hrest : ¬pat <:+: s := fun hi => h (hi.trans (List.suffix_cons c s).isInfix)
    rw [cutFirst, if_neg hprefix, ih hrest]

/-- A directory that is no cache is not taken for one. -/
theorem cacheTest_of_not_cache (h : ¬IsCache x) : cacheTest x = false := by
  rw [cacheTest, cutFirst_of_not_infix h]
  simp

/-- With a selection the flag starts anew for each directory. -/
theorem selected_loop (hargs : i.args ≠ []) {o : Str × Outcome}
    (ho : o ∈ buildLoop i true cacheclean delme builds)
    (hcache : ¬IsCache o.1) : o.2 = .removed ↔ chosen i.args o.1 = true ∧ busy i o.1 = false := by
  induction builds generalizing delme with
  | nil => cases ho
  | cons x builds ih =>
    rw [buildLoop] at ho
    simp only [hargs, ne_eq, not_false_eq_true, true_and, if_true, Bool.true_and] at ho
    split_ifs at ho with hdir hchosen htest hbusy
    · exact ih ho
    · rcases List.mem_cons.mp ho with rfl | ho
      · simp [hchosen]
      · exact ih ho
    · rcases List.mem_cons.mp ho with rfl | ho
      · exact absurd htest (by rw [cacheTest_of_not_cache hcache]; exact Bool.false_ne_true)
      · exact ih ho
    · rcases List.mem_cons.mp ho with rfl | ho
      · exact absurd htest (by rw [cacheTest_of_not_cache hcache]; exact Bool.false_ne_true)
      · exact ih ho
    · rename_i hidle
      rcases List.mem_cons.mp ho with rfl | ho
      · have hbusy : busy i x = false := by simpa using hidle
        simp [hchosen, hbusy]
      · exact ih ho
    · rename_i hidle
      rcases List.mem_cons.mp ho with rfl | ho
      · have hbusy : busy i x = true := by simpa using hidle
        simp [hbusy]
      · exact ih ho

/-- The flag is set at each idle directory, and a busy one resets it. -/
def Fits (i : Input) : Bool → List Str → Prop
  | _, [] => True
  | delme, x :: dirs => (Idle i x → delme = true) ∧ Fits i (delme && !busy i x) dirs

theorem unselected_loop (hargs : i.args = []) :
    (∀ o ∈ buildLoop i true cacheclean delme builds, ¬IsCache o.1 → (o.2 = .removed ↔ busy i o.1 = false)) ↔
      Fits i delme (builds.filter fun x => i.isDir x && !cacheTest x) := by
  induction builds generalizing delme with
  | nil => simp [buildLoop, Fits]
  | cons x builds ih =>
    rw [buildLoop]
    by_cases hdir : i.isDir x = true
    · have hno : ¬i.isDir x = false := by simp [hdir]
      have hnone : ¬(i.args ≠ [] ∧ chosen i.args x = false) := fun h => h.1 hargs
      have hflag : (if i.args ≠ [] then true else delme) = delme := if_neg fun h => h hargs
      rw [if_neg hno, if_neg hnone, hflag]
      by_cases htest : cacheTest x = true
      · have hcache : IsCache x := by
          by_contra hcache
          rw [cacheTest_of_not_cache hcache] at htest
          cases htest
        rw [List.filter_cons_of_neg (by simp [htest]), ← ih]
        simp only [htest, if_true, List.forall_mem_cons]
        exact ⟨fun h => h.2, fun h => ⟨fun hnot => absurd hcache hnot, h⟩⟩
      · rw [List.filter_cons_of_pos (by simp [hdir, htest]), Fits, ← ih]
        simp only [htest, if_true, List.forall_mem_cons, Bool.false_eq_true, if_false]
        refine and_congr_left fun _ => ?_
        cases hbusy : busy i x <;> cases delme <;> simp [Idle, hbusy]
    · have hno : i.isDir x = false := by simpa using hdir
      rw [if_pos hno, List.filter_cons_of_neg (by simp [hno]), ih]

theorem fits_false (dirs : List Str) : Fits i false dirs ↔ ∀ x ∈ dirs, ¬Idle i x := by
  induction dirs with
  | nil => simp [Fits]
  | cons x dirs ih => simp [Fits, ih]

theorem fits_iff (dirs : List Str) : Fits i delme dirs ↔
    dirs.Pairwise (fun y x => Idle i x → busy i y = false) ∧ ((∃ x ∈ dirs, Idle i x) → delme = true) := by
  induction dirs generalizing delme with
  | nil => simp [Fits]
  | cons y dirs ih =>
    rw [Fits, List.pairwise_cons]
    cases hbusy : busy i y with
    | true =>
      have hidle : ¬Idle i y := fun h => by simp [h.2] at hbusy
      rw [Bool.not_true, Bool.and_false, fits_false]
      constructor
      · rintro ⟨-, hnone⟩
        refine ⟨⟨fun x hx h => absurd h (hnone x hx), ?_⟩, ?_⟩
        · exact (List.pairwise_of_forall_mem_list fun a _ b hb h => absurd h (hnone b hb))
        · rintro ⟨x, hx, h⟩
          rcases List.mem_cons.mp hx with rfl | hx
          · exact absurd h hidle
          · exact absurd h (hnone x hx)
      · rintro ⟨⟨hhead, -⟩, -⟩
        exact ⟨fun h => absurd h hidle, fun x hx h => absurd (hhead x hx h) (by simp)⟩
    | false =>
      rw [Bool.not_false, Bool.and_true, ih]
      constructor
      · rintro ⟨hflag, hpair, hrest⟩
        refine ⟨⟨fun _ _ _ => rfl, hpair⟩, ?_⟩
        rintro ⟨x, hx, h⟩
        rcases List.mem_cons.mp hx with rfl | hx
        · exact hflag h
        · exact hrest ⟨x, hx, h⟩
      · rintro ⟨⟨-, hpair⟩, hrest⟩
        exact ⟨fun h => hrest ⟨y, List.mem_cons_self, h⟩, hpair,
          fun ⟨x, hx, h⟩ => hrest ⟨x, List.mem_cons_of_mem y hx, h⟩⟩

end Loop

/-- The directories are treated independently if there is a selection, or nothing spoils the flag. -/
theorem independent_iff (i : Input) (cacheclean delme : Bool) :
    Independent i cacheclean delme ↔ Unspoilt i delme := by
  by_cases hargs : i.args = []
  · have hloop := @unselected_loop i cacheclean (sourceLoop i.args delme i.sources) i.builds hargs
    rw [fits_iff] at hloop
    rw [Independent, Unspoilt, cleanup]
    simp only [hargs, true_or, true_and, ne_eq, not_true_eq_false, false_or]
    rw [hargs] at hloop
    exact hloop
  · simp only [Independent, Unspoilt, hargs, ne_eq, not_false_eq_true, true_or, iff_true, false_or]
    exact fun o ho hcache => selected_loop hargs ho hcache

section Sample

theorem words_of_all {builds : List Str}
    (h : (builds.all fun x => x.all fun c => !([' ', '\t', '\n', '*', '?', '[', '\\'] : Str).contains c) =
    true) :
    ∀ x ∈ builds, ∀ c ∈ x, c ∉ ([' ', '\t', '\n', '*', '?', '[', '\\'] : Str) := by
  simpa using h

def sampleBuilds : List Str := ["build/a".toList, "build/b".toList]

theorem sample_words : ∀ x ∈ sampleBuilds, ∀ c ∈ x, c ∉ ([' ', '\t', '\n', '*', '?', '[', '\\'] : Str) :=
  words_of_all rfl

/-- Two builds, the first of which has a `proc` that cannot be unmounted. -/
def sampleInput : Input where
  args := []
  sources := []
  builds := sampleBuilds
  words := sample_words
  isDir _ := true
  remains y := y = "build/a/proc".toList

/-- The second build is kept as well. -/
theorem idle_kept :
    cleanup sampleInput true false true = [("build/a".toList, .kept), ("build/b".toList, .kept)] ∧
    ¬Independent sampleInput false true := by
  have hkept : cleanup sampleInput true false true =
      [("build/a".toList, .kept), ("build/b".toList, .kept)] := by decide +kernel
  refine ⟨hkept, fun h => ?_⟩
  have hidle : busy sampleInput "build/b".toList = false := by decide +kernel
  have hcache : ¬IsCache "build/b".toList := by decide +kernel
  have hb := h ("build/b".toList, .kept) (by rw [hkept]; exact .tail _ (.head _)) hcache
  exact absurd (hb.mpr ⟨.inl rfl, hidle⟩) (by decide)

end Sample

end T2SDE.CleanupBuild
