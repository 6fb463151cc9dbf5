import T2SDE.Lib.CString

namespace T2SDE

open Text CString

/-- A list under var/adm/flists: one line for each file of a package. -/
structure FileList where
  pkg : Str
  paths : List Str
  pkg_word : ∀ c ∈ pkg, c ∉ [' ', '\t', '\n', nul]
  path_line : ∀ p ∈ paths, p ≠ [] ∧ ∀ c ∈ p, c ∉ ['\n', nul]

namespace FileList

def entry (pkg path : Str) : Str := pkg ++ ':' :: ' ' :: path

def text (l : FileList) : Str := l.paths.flatMap fun path => entry l.pkg path ++ ['\n']

variable {l : FileList} {pkg path : Str}

theorem pkg_no_blank (l : FileList) : ' ' ∉ l.pkg := fun h => l.pkg_word ' ' h (by simp)

theorem pkg_no_newline (l : FileList) : '\n' ∉ l.pkg := fun h => l.pkg_word '\n' h (by simp)

theorem path_ne_nil (h : path ∈ l.paths) : path ≠ [] := (l.path_line path h).1

theorem path_no_newline (h : path ∈ l.paths) : '\n' ∉ path :=
  fun hc => (l.path_line path h).2 '\n' hc (by simp)

theorem entry_no_newline (hpkg : '\n' ∉ pkg) (hpath : '\n' ∉ path) : '\n' ∉ entry pkg path := by
  simp [entry, hpkg, hpath]

theorem length_entry (pkg path : Str) : (entry pkg path).length = pkg.length + 2 + path.length := by
  simp only [entry, List.length_append, List.length_cons]
  omega

/-- The name of a line is what is behind its first blank. -/
theorem entry_name (hpkg : ' ' ∉ pkg) (path : Str) :
    (entry pkg path).dropWhile (· != ' ') = ' ' :: path := by
  have hrun : ∀ c ∈ pkg ++ [':'], (c != ' ') = true := by
    intro c hc
    rcases List.mem_append.mp hc with hc | hc
    · simpa using fun h : c = ' ' => hpkg (h ▸ hc)
    · rw [List.mem_singleton.mp hc]
      rfl
  have hentry : entry pkg path = (pkg ++ [':']) ++ ' ' :: path := by simp [entry]
  rw [hentry, List.dropWhile_append_of_pos hrun, List.dropWhile_cons_of_neg (by simp)]

end FileList

end T2SDE
