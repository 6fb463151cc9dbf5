import T2SDE.FlWrapper

namespace T2SDE.FlWrapper

open Text PathName

def atFunctions : List Str :=
  ["openat", "openat64", "linkat", "symlinkat", "renameat", "renameat2", "utimensat"].map String.toList

/-- Which arguments of an `*at` function name the file it creates or opens: the descriptor, and the
path behind it. -/
def destination (function : Str) : Nat × Nat :=
  if function = "linkat".toList ∨ function = "renameat".toList ∨ function = "renameat2".toList then (2, 3)
  else if function = "symlinkat".toList then (1, 2)
  else (0, 1)

/-- The name of the parameter that a call passes on at some place. -/
def Wrapper.arg (w : Wrapper) (i : Nat) : Str := w.args.getD i []

/-- The file that the original function creates or opens. -/
def Wrapper.target (w : Wrapper) (proc : Process) (call : Call) : List Str :=
  proc.fileAt (call.fd (w.arg (destination w.function).1)) (call.path (w.arg (destination w.function).2))

def Event.watched : Event → Option Str
  | .check _ file | .before _ file | .after _ file => some file
  | .exit | .original _ _ => none

/-- Every path that a wrapper hands to `lstat`, the check or the log names the file of the call. -/
def WatchesTarget (w : Wrapper) (basedir : Option Str) (proc : Process) (call : Call) : Prop :=
  ∀ file ∈ (w.run basedir proc call).filterMap Event.watched,
    proc.fileAt .cwd file = w.target proc call

/-- The descriptor that the wrapper tests: `linkat` tests the one of the source. -/
def testedFd (call : Call) : Dirfd := call.fd "atfd".toList

/-- A descriptor whose link resolves, with room for the link and the path. -/
def Resolves (proc : Process) (fd : Dirfd) (path : Str) : Prop :=
  ∀ n, fd = .fd n → ∃ link, proc.readlink n = some link ∧ link.head? = some '/' ∧
    link.length + 1 + path.length < pathMax

theorem atWrappers {line : Str} (h : line ∈ prototypes)
    (hat : (addWrapper line).function ∈ atFunctions) :
    (addWrapper line).atcheck = ["atfd".toList] ∧ isExec (addWrapper line).function = false ∧
      (addWrapper line).arg (destination (addWrapper line).function).2 = ['f'] ∧
      (addWrapper line).arg (destination (addWrapper line).function).1 =
        if (addWrapper line).function = "linkat".toList then "atfd2".toList else "atfd".toList := by
  have hall : ∀ w ∈ generated, w.1 ∈ atFunctions → w.2.1 = ["atfd".toList] ∧ isExec w.1 = false ∧
      w.2.2.getD (destination w.1).2 [] = ['f'] ∧ w.2.2.getD (destination w.1).1 [] =
        if w.1 = "linkat".toList then "atfd2".toList else "atfd".toList := by
    decide +kernel
  exact hall _ (mem_generated h) hat

variable {basedir : Option Str} {w : Wrapper} {proc : Process} {call : Call}

theorem watched_iff (hexec : isExec w.function = false) (P : Str → Prop) :
    (∀ file ∈ (w.run basedir proc call).filterMap Event.watched, P file) ↔ P (w.f2 proc call) := by
  simp only [Wrapper.run, hexec, Bool.false_eq_true, if_false]
  cases basedir with
  | none => split_ifs <;> simp [Event.watched]
  | some basedir =>
    by_cases hpasses : checkWriteAccess basedir (w.f2 proc call) = true
    · split_ifs <;> simp [Event.watched, hpasses]
    · split_ifs <;> simp [Event.watched, hpasses]

/-- The watched path leads to where `f` leads from the tested descriptor; an absolute `f` is lost in
the directory. -/
theorem fileAt_f2 (h : w.atcheck = ["atfd".toList])
    (hresolves : Resolves proc (testedFd call) (call.path ['f'])) :
    proc.fileAt .cwd (w.f2 proc call) =
      if testedFd call = .cwd then proc.fileAt .cwd (call.path ['f'])
      else resolve (proc.directory (testedFd call)) (call.path ['f']) := by
  cases hfd : testedFd call with
  | cwd =>
    have hf2 : w.f2 proc call = call.path ['f'] := by
      rw [testedFd] at hfd
      simp only [Wrapper.f2, h, List.foldl_cons, List.foldl_nil, hfd]
    rw [hf2, if_pos rfl]
  | fd n =>
    obtain ⟨link, hlink, hslash, hroom⟩ := hresolves n hfd
    have hf2 : w.f2 proc call = link ++ '/' :: call.path ['f'] := by
      rw [testedFd] at hfd
      simp only [Wrapper.f2, h, List.foldl_cons, List.foldl_nil, hfd, getatpath, hlink]
      rw [List.take_of_length_le (by omega), List.take_of_length_le (by omega)]
    have hhead : (link ++ '/' :: call.path ['f']).head? = some '/' := by
      simp [List.head?_append, hslash]
    rw [hf2, fileAt_absolute hhead, resolve_append, if_neg (by simp), Process.directory, hlink]
    rfl

/-- The descriptor of the destination. -/
def destinationFd (w : Wrapper) (call : Call) : Dirfd :=
  call.fd (if w.function = "linkat".toList then "atfd2".toList else "atfd".toList)

/-- A relative path is watched rightly if both directories agree above the levels it climbs, an
absolute one if the tested descriptor is `AT_FDCWD` or the path climbs out of its directory. -/
def RightDirectory (w : Wrapper) (proc : Process) (call : Call) : Prop :=
  let f := call.path ['f']
  if f.head? = some '/' then
    testedFd call = .cwd ∨ (proc.directory (testedFd call)).length ≤ (move f).up
  else
    (proc.directory (testedFd call)).rdrop (move f).up =
      (proc.directory (destinationFd w call)).rdrop (move f).up

/-- The `*at` wrappers watch the file that the original call creates or opens exactly if the tested
descriptor leads to the right directory. -/
theorem watchesTarget_iff {line : Str} (hline : line ∈ prototypes)
    (hat : (addWrapper line).function ∈ atFunctions) (basedir : Option Str) (proc : Process) (call : Call)
    (hresolves : Resolves proc (testedFd call) (call.path ['f'])) :
    WatchesTarget (addWrapper line) basedir proc call ↔ RightDirectory (addWrapper line) proc call := by
  obtain ⟨hatcheck, hexec, hpath, hfd⟩ := atWrappers hline hat
  have htarget : (addWrapper line).target proc call =
      proc.fileAt (destinationFd (addWrapper line) call) (call.path ['f']) := by
    rw [Wrapper.target, hpath, hfd, destinationFd]
  rw [WatchesTarget, watched_iff hexec, fileAt_f2 hatcheck hresolves, htarget]
  by_cases habs : (call.path ['f']).head? = some '/'
  · simp only [RightDirectory, habs, if_true]
    rw [fileAt_absolute habs, fileAt_absolute habs]
    split_ifs with hcwd
    · simp [hcwd]
    · have hroot : ([] : List Str).rdrop (move (call.path ['f'])).up = [] := by simp
      rw [resolve_eq_iff, hroot, List.rdrop, ← List.length_eq_zero_iff, List.length_take]
      simp only [hcwd, false_or]
      omega
  · simp only [RightDirectory, habs, if_false]
    rw [fileAt_relative habs, fileAt_relative habs]
    split_ifs with hcwd
    · rw [← resolve_eq_iff, hcwd]
    · rw [resolve_eq_iff]

def linkatLine : Str :=
  "int,   linkat,  int atfd, const char* s, int atfd2, const char* f, int flags".toList

/-- Two directories: descriptor 3 is the source, descriptor 4 the destination. -/
def twoDirectories : Process :=
  ⟨"/".toList, fun n => some (if n = 3 then "/usr/src".toList else "/usr/bin".toList)⟩

def linkCall (f : String) : Call :=
  ⟨fun x => if x = "atfd".toList then .fd 3 else .fd 4, fun _ => f.toList, {}⟩

theorem watchesTarget_iff_sample :
    WatchesTarget (addWrapper linkatLine) none twoDirectories (linkCall "../lib/x") ↔
      RightDirectory (addWrapper linkatLine) twoDirectories (linkCall "../lib/x") :=
  watchesTarget_iff (by decide +kernel) (by decide +kernel) none twoDirectories (linkCall "../lib/x")
    fun n hn => by
      refine ⟨"/usr/src".toList, ?_, rfl, by decide⟩
      cases hn
      rfl

/-- `linkat` watches the new name in the directory of the source, and `renameat` an absolute path
below the directory of the descriptor. -/
theorem wrong_directory :
    ¬WatchesTarget (addWrapper linkatLine) none twoDirectories (linkCall "tool") ∧
    ¬WatchesTarget
      (addWrapper "int,   renameat,  int atfds, const char* s, int atfd, const char* f".toList) none
      twoDirectories (linkCall "/etc/passwd") := by
  constructor
  · intro h
    exact absurd (h "/usr/src/tool".toList (by decide +kernel)) (by decide +kernel)
  · intro h
    exact absurd (h "/usr/src//etc/passwd".toList (by decide +kernel)) (by decide +kernel)

end T2SDE.FlWrapper
