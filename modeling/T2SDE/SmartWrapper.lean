import Mathlib.Data.List.TakeWhile
import T2SDE.Lib.Awk

namespace T2SDE.SmartWrapper

open Text Awk

section Program

/-- What the rules of the program look at. ARGIND is zero where awk does not know it. -/
structure Record where
  argind : Nat
  filename : Str
  line : Str

structure State where
  hotlist : List Str
  speedarg : List Str
  sizearg : List Str
  ishot : Bool

def hotPrefix : Str := "-HOT".toList

/-- `gsub("^-HOT", "")` with the number of substitutions. -/
def gsubHot (s : Str) : Str × Nat := if hotPrefix <+: s then (s.drop hotPrefix.length, 1) else (s, 0)

/-- `gsub("^[^-].*/", "")`: the longest match ends with the last slash, and a character other
than '-' is in front of it. -/
def gsubPath : Str → Str × Nat
  | c :: r => if c ≠ '-' ∧ '/' ∈ r then ((r.reverse.takeWhile (· != '/')).reverse, 1) else (c :: r, 0)
  | [] => ([], 0)

def readProfile (st : State) (line : Str) : State :=
  { st with hotlist := st.hotlist ++ [field (split line) 2] }

def readCommand (st : State) (line : Str) : State :=
  let hot := gsubHot line
  if hot.2 = 1 then { st with speedarg := st.speedarg ++ [hot.1] }
  else
    let path := gsubPath hot.1
    { st with
      speedarg := st.speedarg ++ [hot.1]
      sizearg := st.sizearg ++ [hot.1]
      ishot := st.ishot || decide (path.2 > 0 ∧ path.1 ∈ st.hotlist) }

def step (st : State) (r : Record) : State :=
  let st := if r.argind = 1 ∨ r.argind = 0 ∧ r.filename ≠ ['-'] then readProfile st r.line else st
  if r.argind = 2 ∨ r.argind = 0 ∧ r.filename = ['-'] then readCommand st r.line else st

/-- The profile file of a package, or the one that stands for a missing one. -/
def profileName : Option Str → Str
  | some path => path ++ ".prof".toList
  | none => "/dev/null".toList

/-- The lines of both arguments as awk reads them, with or without POSIXLY_CORRECT. -/
def records (posix : Bool) (f : Option Str) (profile args : List Str) : List Record :=
  profile.map (⟨if posix then 0 else 1, profileName f, ·⟩) ++
    args.map (⟨if posix then 0 else 2, ['-'], ·⟩)

def smartWrapper (posix : Bool) (f : Option Str) (profile args : List Str) : List Str :=
  let st := (records posix f profile args).foldl step ⟨[], [], [], false⟩
  if st.ishot then st.speedarg else st.sizearg

end Program

section Purpose

def hotFiles (profile : List Str) : List Str := profile.map fun line => field (split line) 2

/-- The part behind the last slash. -/
def baseName (a : Str) : Str := (a.reverse.takeWhile (· != '/')).reverse

def HotSource (profile : List Str) (a : Str) : Prop := a.head? ≠ some '-' ∧ baseName a ∈ hotFiles profile

instance (profile : List Str) (a : Str) : Decidable (HotSource profile a) :=
  inferInstanceAs (Decidable (_ ∧ _))

def removeHot (a : Str) : Str := if hotPrefix <+: a then a.drop hotPrefix.length else a

/-- The arguments for speed where a source is hot, the arguments for size otherwise. -/
def filtered (profile args : List Str) : List Str :=
  if ∃ a ∈ args, HotSource profile a then args.map removeHot
  else args.filter fun a => !decide (hotPrefix <+: a)

/-- A directory part as the program looks for it: not the root directory alone. -/
def HasPath (a : Str) : Prop := '/' ∈ a.drop 1

instance (a : Str) : Decidable (HasPath a) := inferInstanceAs (Decidable (_ ∈ _))

end Purpose

section Run

variable {st : State} {profile args : List Str} {a : Str}

theorem gsubHot_eq (a : Str) : gsubHot a = (removeHot a, if hotPrefix <+: a then 1 else 0) := by
  unfold gsubHot removeHot
  split <;> rfl

theorem baseName_cons {c : Char} {r : Str} (h : '/' ∈ r) :
    (r.reverse.takeWhile (· != '/')).reverse = baseName (c :: r) := by
  have hlen : (r.reverse.takeWhile (· != '/')).length ≠ r.reverse.length := by
    intro he
    have hall := (List.takeWhile_prefix (l := r.reverse) (· != '/')).eq_of_length he
    have hslash := List.takeWhile_eq_self_iff.mp hall '/' (List.mem_reverse.mpr h)
    simp at hslash
  rw [baseName, List.reverse_cons, List.takeWhile_append, if_neg hlen]

/-- The lookup of an argument finds hot sources only, those that have a path. -/
theorem lookup_iff (profile : List Str) (a : Str) : (gsubPath a).2 > 0 ∧ (gsubPath a).1 ∈ hotFiles profile ↔
    HotSource profile a ∧ HasPath a := by
  cases a with
  | nil => simp [gsubPath, HasPath]
  | cons c r =>
    by_cases h : c ≠ '-' ∧ '/' ∈ r
    · have hpath : gsubPath (c :: r) = (baseName (c :: r), 1) := by
        rw [gsubPath, if_pos h, baseName_cons h.2]
      simp [hpath, HotSource, HasPath, h]
    · have hpath : gsubPath (c :: r) = (c :: r, 0) := by rw [gsubPath, if_neg h]
      simp only [hpath, HotSource, HasPath, List.head?_cons, List.drop_succ_cons, List.drop_zero]
      constructor
      · rintro ⟨h0, -⟩
        omega
      · rintro ⟨⟨hc, -⟩, hslash⟩
        exact absurd ⟨fun he => hc (by rw [he]), hslash⟩ h

theorem HotSource.not_hot (h : HotSource profile a) : ¬hotPrefix <+: a := by
  rintro ⟨t, rfl⟩
  exact h.1 rfl

theorem step_profile (posix : Bool) (f : Option Str) (line : Str) :
    step st ⟨if posix then 0 else 1, profileName f, line⟩ = readProfile st line := by
  have hname : profileName f ≠ ['-'] := by
    cases f with
    | none => decide
    | some path =>
      intro he
      have hlen := congrArg List.length (show path ++ ".prof".toList = ['-'] from he)
      have hfive : ".prof".toList.length = 5 := by decide
      rw [List.length_append, hfive, List.length_singleton] at hlen
      omega
  cases posix <;> simp [step, hname]

theorem step_command (posix : Bool) (line : Str) :
    step st ⟨if posix then 0 else 2, ['-'], line⟩ = readCommand st line := by
  cases posix <;> simp [step]

theorem run_profile (profile : List Str) (st : State) :
    profile.foldl readProfile st = { st with hotlist := st.hotlist ++ hotFiles profile } := by
  induction profile generalizing st with
  | nil => simp [hotFiles]
  | cons line profile ih => simp [ih, readProfile, hotFiles]

theorem readCommand_eq (hprofile : st.hotlist = hotFiles profile) (a : Str) :
    readCommand st a = { st with
      speedarg := st.speedarg ++ [removeHot a]
      sizearg := st.sizearg ++ [a].filter fun a => !decide (hotPrefix <+: a)
      ishot := st.ishot || decide (HotSource profile a ∧ HasPath a) } := by
  simp only [readCommand, gsubHot_eq]
  by_cases h : hotPrefix <+: a
  · have hno : ¬HotSource profile a := fun hs => hs.not_hot h
    simp [h, hno]
  · have hsame : removeHot a = a := if_neg h
    simp only [h, hsame, hprofile, if_false, decide_eq_decide.mpr (lookup_iff profile a)]
    simp [h]

theorem run_command (args : List Str) (hprofile : st.hotlist = hotFiles profile) :
    args.foldl readCommand st = { st with
      speedarg := st.speedarg ++ args.map removeHot
      sizearg := st.sizearg ++ args.filter fun a => !decide (hotPrefix <+: a)
      ishot := st.ishot || args.any fun a => decide (HotSource profile a ∧ HasPath a) } := by
  induction args generalizing st with
  | nil => simp
  | cons a args ih =>
    have hnext : (readCommand st a).hotlist = hotFiles profile := by rw [readCommand_eq hprofile a, hprofile]
    rw [List.foldl_cons, ih hnext, readCommand_eq hprofile a]
    simp only [List.append_assoc, List.singleton_append, List.map_cons, List.any_cons, Bool.or_assoc,
      ← List.filter_append]

/-- Both modes of awk come to the same decision. -/
theorem smartWrapper_eq (posix : Bool) (f : Option Str) (profile args : List Str) :
    smartWrapper posix f profile args =
      if ∃ a ∈ args, HotSource profile a ∧ HasPath a then args.map removeHot
      else args.filter fun a => !decide (hotPrefix <+: a) := by
  simp only [smartWrapper, records, List.foldl_append, List.foldl_map, step_profile, step_command,
    run_profile]
  rw [run_command args rfl]
  simp

theorem lists_agree_iff (args : List Str) :
    args.map removeHot = args.filter (fun a => !decide (hotPrefix <+: a)) ↔ ∀ a ∈ args, ¬hotPrefix <+: a := by
  constructor
  · intro h
    have hlen := congrArg List.length h
    rw [List.length_map] at hlen
    simpa using List.length_filter_eq_length_iff.mp hlen.symm
  · intro h
    have hfilter : args.filter (fun a => !decide (hotPrefix <+: a)) = args := by simpa using h
    rw [hfilter]
    exact (List.map_congr_left fun a ha => if_neg (h a ha)).trans (List.map_id' args)

end Run

/-- A hot source counts only where it is given with a path. -/
theorem smartWrapper_iff (posix : Bool) (f : Option Str) (profile args : List Str) :
    smartWrapper posix f profile args = filtered profile args ↔
      (∀ a ∈ args, ¬hotPrefix <+: a) ∨
        ((∃ a ∈ args, HotSource profile a) → ∃ a ∈ args, HotSource profile a ∧ HasPath a) := by
  rw [smartWrapper_eq, filtered]
  by_cases hpath : ∃ a ∈ args, HotSource profile a ∧ HasPath a
  · have hhot : ∃ a ∈ args, HotSource profile a := hpath.imp fun a ha => ⟨ha.1, ha.2.1⟩
    simp only [if_pos hpath, if_pos hhot, true_iff]
    exact Or.inr fun _ => hpath
  · by_cases hhot : ∃ a ∈ args, HotSource profile a
    · rw [if_neg hpath, if_pos hhot, eq_comm, lists_agree_iff]
      exact ⟨Or.inl, fun h => h.resolve_right fun hi => hpath (hi hhot)⟩
    · rw [if_neg hpath, if_neg hhot]
      exact iff_of_true rfl (Or.inr fun h => absurd h hhot)

/-- A source without a directory part is never hot. -/
theorem smartWrapper_plain :
    smartWrapper false (some "gcc".toList) ["90 foo.c".toList] ["-HOT-O2".toList, "-c".toList,
    "foo.c".toList] ≠
      filtered ["90 foo.c".toList] ["-HOT-O2".toList, "-c".toList, "foo.c".toList] := by
  decide +kernel

end T2SDE.SmartWrapper
