import T2SDE.FlWrapper

namespace T2SDE.FlWrapper

open Text PathName

/-- The flags allow to write, create or truncate the file. -/
def OpenFlags.Writes (a : OpenFlags) : Prop :=
  a.wronly = true ∨ a.rdwr = true ∨ a.creat = true ∨ a.trunc = true ∨ a.append = true

/-- The flags that the wrappers hand over to the check. -/
def OpenFlags.Checked (a : OpenFlags) : Prop :=
  a.wronly = true ∨ a.creat = true ∨ a.append = true

/-- The files that a build may write. -/
def Writable (basedir : Str) (file : List Str) : Prop :=
  file = ["dev".toList, "null".toList] ∨ ["tmp".toList] <+: file ∨ resolve [] basedir <+: file

/-- The spelling of a path that the check refuses. -/
def Refused (basedir file : Str) : Prop :=
  file.head? = some '/' ∧ skipSlashes file ≠ "/dev/null".toList ∧
    ¬"/tmp".toList <+: skipSlashes file ∧ ¬basedir <+: skipSlashes file

/-- The path that the wrapper has checked: for a descriptor with a link, the link and the path. -/
def checkedPath (w : Wrapper) (proc : Process) (call : Call) : Str :=
  if "atfd".toList ∈ w.atcheck then
    match call.fd "atfd".toList with
    | .cwd => call.path ['f']
    | .fd n => getatpath proc n (call.path ['f'])
  else call.path ['f']

def openFunctions : List Str := ["open", "open64", "openat", "openat64"].map String.toList

variable {basedir file : Str} {w : Wrapper} {proc : Process} {call : Call}

/-- Below the base directory the check is right as long as the rest of the path never climbs. -/
theorem writable_below {rest : Str} (h : (move rest).up = 0) :
    Writable basedir (resolve [] (basedir ++ '/' :: rest)) := by
  rw [resolve_append]
  exact .inr (.inr (prefix_resolve h))

theorem checkWriteAccess_eq : checkWriteAccess basedir file = false ↔ Refused basedir file := by
  unfold checkWriteAccess Refused
  split_ifs with h
  · simp [h, and_assoc, ← Bool.not_eq_true]
  · simp [h]

theorem openWrappers {line : Str} (h : line ∈ prototypes)
    (hopen : (addWrapper line).function ∈ openFunctions) :
    isOpen (addWrapper line).function = true ∧
      ((addWrapper line).atcheck = [] ∨ (addWrapper line).atcheck = ["atfd".toList]) := by
  have hall : ∀ w ∈ generated, w.1 ∈ openFunctions →
      isOpen w.1 = true ∧ (w.2.1 = [] ∨ w.2.1 = ["atfd".toList]) := by
    decide +kernel
  exact hall _ (mem_generated h) hopen

/-- The original function is reached unless checked flags meet a refused spelling. -/
theorem mem_run_original (hopen : isOpen w.function = true) (args : List Str) :
    .original w.function args ∈ w.run (some basedir) proc call ↔
      args = w.args ∧ ¬(call.flags.Checked ∧ Refused basedir (w.f2 proc call)) := by
  have hflags : (call.flags.wronly || call.flags.creat || call.flags.append) = true ↔
      call.flags.Checked := by
    simp [OpenFlags.Checked, or_assoc]
  rw [← checkWriteAccess_eq, ← hflags]
  simp only [Wrapper.run, hopen, if_true]
  split_ifs with hchecked hpasses
  · simp [hpasses]
  · simp [hchecked, hpasses]
  · simp [hchecked]

theorem f2_eq_checkedPath (h : w.atcheck = [] ∨ w.atcheck = ["atfd".toList]) :
    w.f2 proc call = checkedPath w proc call := by
  rcases h with h | h
  · simp [Wrapper.f2, checkedPath, h]
  · cases hfd : call.fd "atfd".toList with
    | cwd =>
      simp only [Wrapper.f2, checkedPath, h, hfd, List.mem_singleton, if_true, List.foldl_cons,
        List.foldl_nil]
    | fd dir =>
      simp only [Wrapper.f2, checkedPath, h, hfd, List.mem_singleton, if_true, List.foldl_cons,
        List.foldl_nil]

/-- A call that may write an absolute path reaches the original function only for a writable file. -/
def Sandboxed (basedir : Str) (w : Wrapper) (proc : Process) (call : Call) : Prop :=
  call.flags.Writes → (call.path ['f']).head? = some '/' → ∀ args,
    .original w.function args ∈ w.run (some basedir) proc call →
    Writable basedir (resolve [] (call.path ['f']))

/-- A call is kept inside exactly if its file may be written, or one of the three flags of the mask
is set and the checked spelling starts with neither of the two directories. -/
theorem sandboxed_iff {line : Str} (hline : line ∈ prototypes)
    (hopen : (addWrapper line).function ∈ openFunctions) (basedir : Str) (proc : Process) (call : Call)
    (habs : (call.path ['f']).head? = some '/') (hwrites : call.flags.Writes) :
    Sandboxed basedir (addWrapper line) proc call ↔
      Writable basedir (resolve [] (call.path ['f'])) ∨
        (call.flags.Checked ∧ Refused basedir (checkedPath (addWrapper line) proc call)) := by
  obtain ⟨hkind, hatcheck⟩ := openWrappers hline hopen
  simp only [Sandboxed, mem_run_original hkind, f2_eq_checkedPath hatcheck]
  constructor
  · intro h
    by_cases hrefused : call.flags.Checked ∧ Refused basedir (checkedPath (addWrapper line) proc call)
    · exact .inr hrefused
    · exact .inl (h hwrites habs _ ⟨rfl, hrefused⟩)
  · rintro (hwritable | hrefused) _ _ args ⟨_, hreached⟩
    · exact hwritable
    · exact absurd hrefused hreached

instance (basedir : Str) (file : List Str) : Decidable (Writable basedir file) :=
  inferInstanceAs (Decidable (_ ∨ _ ∨ _))

def openLine : Str := "int,   open,    const char* f, int a, ...".toList

def openatLine : Str := "int,   openat,  int atfd, const char* f, int a, ...".toList

/-- A call for `f`, from the directory of descriptor 3. -/
def sampleCall (f : String) (flags : OpenFlags) : Call := ⟨fun _ => .fd 3, fun _ => f.toList, flags⟩

def sampleProcess : Process := ⟨"/t2".toList, fun _ => some "/t2/src".toList⟩

theorem sandboxed_iff_sample :
    Sandboxed "/t2".toList (addWrapper openLine) sampleProcess
        (sampleCall "/t2/build/../x" { wronly := true }) ↔
      Writable "/t2".toList (resolve [] "/t2/build/../x".toList) ∨
        (OpenFlags.Checked { wronly := true } ∧ Refused "/t2".toList
          (checkedPath (addWrapper openLine) sampleProcess
            (sampleCall "/t2/build/../x" { wronly := true }))) :=
  sandboxed_iff (by decide +kernel) (by decide +kernel) _ _ (sampleCall "/t2/build/../x" _) rfl
    (.inl rfl)

/-- Flags outside the mask, `..` behind an allowed directory, a sibling with a longer name, and an
absolute path next to a descriptor. -/
theorem sandbox_leaks :
    ¬Sandboxed "/t2".toList (addWrapper openLine) sampleProcess
      (sampleCall "/etc/passwd" { rdwr := true, trunc := true }) ∧
    ¬Sandboxed "/t2".toList (addWrapper openLine) sampleProcess
      (sampleCall "/tmp/../etc/passwd" { wronly := true }) ∧
    ¬Sandboxed "/t2".toList (addWrapper openLine) sampleProcess
      (sampleCall "/t2-old/config" { wronly := true, creat := true }) ∧
    ¬Sandboxed "/t2".toList (addWrapper openatLine) sampleProcess
      (sampleCall "/etc/passwd" { wronly := true }) := by
  refine ⟨fun h => ?_, fun h => ?_, fun h => ?_, fun h => ?_⟩
  · exact absurd (h (.inr (.inl rfl)) rfl (addWrapper openLine).args (by decide +kernel))
      (by decide +kernel)
  · exact absurd (h (.inl rfl) rfl (addWrapper openLine).args (by decide +kernel)) (by decide +kernel)
  · exact absurd (h (.inl rfl) rfl (addWrapper openLine).args (by decide +kernel)) (by decide +kernel)
  · exact absurd (h (.inl rfl) rfl (addWrapper openatLine).args (by decide +kernel)) (by decide +kernel)

end T2SDE.FlWrapper
