import Mathlib.Logic.Function.Basic
import T2SDE.FileList
import T2SDE.Lib.Awk

namespace T2SDE.FileDependencies

open Text Awk

section Program

/-- The lines of the file read from standard input: `fl_wrparse -p ''` puts nothing in front of the colon. -/
def readLine (path : Str) : Str := ':' :: ' ' :: path

/-- `grep -v ' var/adm/'` -/
def listed (path : Str) : Bool := !decide (" var/adm/".toList <:+: readLine path)

/-- A line of a file list, in the array of owners for each file. -/
def readList (xpkg : Str) (f : Str → Str) (line : Str) : Str → Str :=
  let a := split line
  if field a 1 ≠ xpkg ++ [':'] then Function.update f (field a 2) (field a 1 ++ ' ' :: f (field a 2)) else f

/-- A line of the read files. -/
def readFile (f : Str → Str) (line : Str) : List Str :=
  let file := field (split line) 2
  if f file ≠ [] then [f file ++ ' ' :: file] else []

def owners (xpkg : Str) (lists : List FileList) : Str → Str :=
  (lists.flatMap fun l => l.paths.map (FileList.entry l.pkg)).foldl (readList xpkg) fun _ => []

/-- dependencies.debug for the files that a package has read. -/
def debug (xpkg : Str) (lists : List FileList) (files : List Str) : List Str :=
  ((files.filter listed).map readLine).flatMap (readFile (owners xpkg lists))

/-- `$1` where fields are separated by a colon and a blank. -/
def firstField : Str → Str
  | [] => []
  | c :: s => if c = ':' ∧ s.head? = some ' ' then [] else c :: firstField s

def dependencyLine (xpkg pkg : Str) : Str := xpkg ++ ':' :: ' ' :: pkg

/-- What the description of a package adds, and the lines that are deleted with its patterns. -/
structure Edits where
  add : List Str
  deleted : Str → Bool

/-- The lines of var/adm/dependencies for a package, before they are sorted. -/
def dependencies (xpkg : Str) (lists : List FileList) (edits : Edits) (files : List Str) : List Str :=
  ((debug xpkg lists files).map (fun line => dependencyLine xpkg (firstField line)) ++
    edits.add.map (dependencyLine xpkg)).filter fun line => !edits.deleted line

end Program

section Purpose

variable (xpkg : Str) (lists : List FileList) (edits : Edits) (files : List Str)

/-- Another package that owns a file. -/
def Owns (q path : Str) : Prop := q ≠ xpkg ∧ ∃ l ∈ lists, l.pkg = q ∧ path ∈ l.paths

/-- A package is neither added nor deleted on request. -/
def Edits.Leaves (q : Str) : Prop := q ∉ edits.add ∧ edits.deleted (dependencyLine xpkg q) = false

/-- The dependencies that nobody asks for are the other owners of the files that are not filtered out. -/
def Complete : Prop :=
  ∀ q, edits.Leaves xpkg q →
    (dependencyLine xpkg q ∈ dependencies xpkg lists edits files ↔
      ∃ p ∈ files.filter listed, Owns xpkg lists q p)

/-- The first word of a path. -/
def firstWord (path : Str) : Str := field (split path) 1

/-- A package is the last one, in the order of the lists, that has a path with this first word. -/
def LastOwner (q w : Str) : Prop :=
  q ≠ xpkg ∧ ∃ before l behind, lists = before ++ l :: behind ∧ l.pkg = q ∧
    (∃ path ∈ l.paths, firstWord path = w) ∧
    ∀ m ∈ behind, m.pkg ≠ xpkg → ∀ path ∈ m.paths, firstWord path ≠ w

end Purpose

section Fields

variable {pkg path xpkg q rest w : Str} {f : Str → Str} {paths : List Str}

theorem blank_of_pkg (l : FileList) : ∀ c ∈ l.pkg ++ [':'], blank c = false := by
  intro c hc
  rcases List.mem_append.mp hc with hc | hc
  · have := l.pkg_word c hc
    simp only [List.mem_cons, not_or] at this
    simp [blank, this]
  · rw [List.mem_singleton.mp hc]
    decide

theorem split_entry (l : FileList) (path : Str) :
    split (FileList.entry l.pkg path) = (l.pkg ++ [':']) :: split path := by
  have htext : FileList.entry l.pkg path = (l.pkg ++ [':']) ++ ' ' :: path := by simp [FileList.entry]
  rw [htext, split, tokens_append_sep rfl, tokens_word (by simp) (blank_of_pkg l)]
  rfl

theorem field_readLine (path : Str) : field (split (readLine path)) 2 = firstWord path := by
  have htext : readLine path = [':'] ++ ' ' :: path := rfl
  have hcolon : ∀ c ∈ [':'], blank c = false := by simp [blank]
  rw [htext, split, tokens_append_sep rfl, tokens_word (by simp) hcolon]
  rfl

theorem readList_entry (l : FileList) (path : Str) :
    readList xpkg f (FileList.entry l.pkg path) =
      if l.pkg = xpkg then f
      else Function.update f (firstWord path) (l.pkg ++ ':' :: ' ' :: f (firstWord path)) := by
  have hone : field ((l.pkg ++ [':']) :: split path) 1 = l.pkg ++ [':'] := rfl
  have htwo : field ((l.pkg ++ [':']) :: split path) 2 = firstWord path := rfl
  have hpkg : l.pkg ++ [':'] ≠ xpkg ++ [':'] ↔ ¬l.pkg = xpkg := by simp
  simp only [readList, split_entry, hone, htwo, hpkg, ite_not, List.append_assoc, List.singleton_append]

/-- The owners of a file as a list of a package changes them. -/
theorem fold_other (l : FileList) (h : l.pkg = xpkg ∨ ∀ path ∈ paths, firstWord path ≠ w) :
    (paths.map (FileList.entry l.pkg)).foldl (readList xpkg) f w = f w := by
  induction paths generalizing f with
  | nil => rfl
  | cons p paths ih =>
    rw [List.map_cons, List.foldl_cons, ih (h.imp_right fun h q hq => h q (List.mem_cons_of_mem p hq)),
      readList_entry]
    split
    · rfl
    next hpkg =>
      have hp := h.resolve_left hpkg p List.mem_cons_self
      exact Function.update_of_ne hp.symm _ f

theorem fold_found (l : FileList) (hpkg : l.pkg ≠ xpkg) (h : ∃ path ∈ paths, firstWord path = w) :
    ∃ rest, (paths.map (FileList.entry l.pkg)).foldl (readList xpkg) f w = l.pkg ++ ':' :: ' ' :: rest := by
  induction paths generalizing f with
  | nil => simp at h
  | cons p paths ih =>
    rw [List.map_cons, List.foldl_cons]
    by_cases hlater : ∃ path ∈ paths, firstWord path = w
    · exact ih hlater
    · have hp : firstWord p = w := by
        obtain ⟨path, hpath, hw⟩ := h
        rcases List.mem_cons.mp hpath with rfl | hpath
        · exact hw
        · exact absurd ⟨path, hpath, hw⟩ hlater
      refine ⟨f w, ?_⟩
      rw [fold_other l (Or.inr fun path hpath hw => hlater ⟨path, hpath, hw⟩), readList_entry,
        if_neg hpkg, hp,
        Function.update_self]

theorem firstField_eq (hq : ' ' ∉ q) (rest : Str) : firstField (q ++ ':' :: ' ' :: rest) = q := by
  induction q with
  | nil => rfl
  | cons c q ih =>
    have hhead : ¬(c = ':' ∧ (q ++ ':' :: ' ' :: rest).head? = some ' ') := by
      rintro ⟨-, h⟩
      cases q with
      | nil => cases h
      | cons d q =>
        obtain rfl := Option.some.inj h
        exact hq (by simp)
    rw [List.cons_append, firstField, if_neg hhead, ih fun h => hq (List.mem_cons_of_mem c h)]

end Fields

section Owners

variable {xpkg q w : Str} {lists : List FileList} {edits : Edits} {files : List Str}

theorem owners_append (xpkg : Str) (lists more : List FileList) :
    owners xpkg (lists ++ more) =
      (more.flatMap fun l =>
      l.paths.map (FileList.entry l.pkg)).foldl (readList xpkg) (owners xpkg lists) := by
  rw [owners, List.flatMap_append, List.foldl_append]
  rfl

theorem owners_concat (xpkg : Str) (lists : List FileList) (l : FileList) :
    owners xpkg (lists ++ [l]) =
      (l.paths.map (FileList.entry l.pkg)).foldl (readList xpkg) (owners xpkg lists) := by
  rw [owners_append, List.flatMap_singleton]

/-- The last owner is in front of all others. -/
theorem owners_last (h : LastOwner xpkg lists q w) :
    ∃ rest, owners xpkg lists w = q ++ ':' :: ' ' :: rest := by
  obtain ⟨hq, before, l, behind, rfl, rfl, hfound, hother⟩ := h
  induction behind using List.reverseRecOn with
  | nil =>
    rw [owners_concat]
    exact fold_found l hq hfound
  | append_singleton behind m ih =>
    have hm : m.pkg = xpkg ∨ ∀ path ∈ m.paths, firstWord path ≠ w :=
      or_iff_not_imp_left.mpr (hother m (by simp))
    have hlists : before ++ l :: (behind ++ [m]) = (before ++ l :: behind) ++ [m] := by simp
    rw [hlists, owners_concat, fold_other m hm]
    exact ih fun x hx => hother x (List.mem_append_left _ hx)

theorem exists_last (h : owners xpkg lists w ≠ []) : ∃ q, LastOwner xpkg lists q w := by
  induction lists using List.reverseRecOn with
  | nil => exact absurd rfl h
  | append_singleton lists l ih =>
    by_cases hl : l.pkg ≠ xpkg ∧ ∃ path ∈ l.paths, firstWord path = w
    · exact ⟨l.pkg, hl.1, lists, l, [], rfl, rfl, hl.2, by simp⟩
    · have hother : l.pkg = xpkg ∨ ∀ path ∈ l.paths, firstWord path ≠ w := by
        by_cases hpkg : l.pkg = xpkg
        · exact Or.inl hpkg
        · exact Or.inr fun path hpath hw => hl ⟨hpkg, path, hpath, hw⟩
      rw [owners_concat, fold_other l hother] at h
      obtain ⟨q, hq, before, m, behind, rfl, hm, hfound, hbehind⟩ := ih h
      refine ⟨q, hq, before, m, behind ++ [l], by simp, hm, hfound, fun x hx hne => ?_⟩
      rcases List.mem_append.mp hx with hx | hx
      · exact hbehind x hx hne
      · obtain rfl := List.mem_singleton.mp hx
        exact hother.resolve_left hne

theorem LastOwner.no_blank (h : LastOwner xpkg lists q w) : ' ' ∉ q := by
  obtain ⟨-, -, l, -, -, rfl, -⟩ := h
  exact l.pkg_no_blank

/-- The lines of dependencies.debug begin with the last owners. -/
theorem mem_debug : q ∈ (debug xpkg lists files).map firstField ↔
    ∃ p ∈ files.filter listed, LastOwner xpkg lists q (firstWord p) := by
  have hread : debug xpkg lists files = (files.filter listed).flatMap fun p =>
      if owners xpkg lists (firstWord p) ≠ [] then
        [owners xpkg lists (firstWord p) ++ ' ' :: firstWord p] else [] := by
    simp only [debug, List.flatMap_map, readFile, field_readLine]
  have hfirst : ∀ {p q}, LastOwner xpkg lists q (firstWord p) →
      firstField (owners xpkg lists (firstWord p) ++ ' ' :: firstWord p) = q := by
    intro p q hq
    obtain ⟨rest, hrest⟩ := owners_last hq
    rw [hrest, List.append_assoc, List.cons_append, List.cons_append]
    exact firstField_eq hq.no_blank _
  rw [hread]
  constructor
  · intro hmem
    obtain ⟨line, hline, rfl⟩ := List.mem_map.mp hmem
    obtain ⟨p, hp, hline⟩ := List.mem_flatMap.mp hline
    split at hline
    next hne =>
      obtain ⟨q, hlast⟩ := exists_last hne
      obtain rfl := List.mem_singleton.mp hline
      rw [hfirst hlast]
      exact ⟨p, hp, hlast⟩
    next => simp at hline
  · rintro ⟨p, hp, hq⟩
    obtain ⟨rest, hrest⟩ := owners_last hq
    have hne : owners xpkg lists (firstWord p) ≠ [] := by simp [hrest]
    refine List.mem_map.mpr ⟨_, List.mem_flatMap.mpr ⟨p, hp, ?_⟩, hfirst hq⟩
    rw [if_pos hne]
    exact List.mem_singleton_self _

theorem mem_dependencies (hq : edits.Leaves xpkg q) :
    dependencyLine xpkg q ∈ dependencies xpkg lists edits files ↔
      ∃ p ∈ files.filter listed, LastOwner xpkg lists q (firstWord p) := by
  have hline : ∀ {a b : Str}, dependencyLine xpkg a = dependencyLine xpkg b ↔ a = b := by
    simp [dependencyLine]
  rw [← mem_debug, dependencies, List.mem_filter, List.mem_append]
  simp only [List.mem_map, hline, hq.2, Bool.not_false, and_true]
  constructor
  · rintro (h | ⟨a, ha, rfl⟩)
    · exact h
    · exact absurd ha hq.1
  · exact Or.inl

end Owners

/-- The dependencies are complete if and only if each other owner of the read files is the last
owner of one, and no last owner for the first word of a path is a stranger. -/
theorem dependencies_complete_iff (xpkg : Str) (lists : List FileList) (edits : Edits) (files : List Str) :
    Complete xpkg lists edits files ↔
      ∀ q, edits.Leaves xpkg q →
        ((∃ p ∈ files.filter listed, Owns xpkg lists q p) →
          ∃ p ∈ files.filter listed, LastOwner xpkg lists q (firstWord p)) ∧
        ∀ p ∈ files.filter listed, LastOwner xpkg lists q (firstWord p) →
          ∃ p' ∈ files.filter listed, Owns xpkg lists q p' := by
  refine forall_congr' fun q => forall_congr' fun hq => ?_
  rw [mem_dependencies hq]
  constructor
  · exact fun h => ⟨h.mpr, fun p hp hlast => h.mp ⟨p, hp, hlast⟩⟩
  · rintro ⟨howner, hlast⟩
    exact ⟨fun ⟨p, hp, h⟩ => hlast p hp h, howner⟩

def sharedBy (pkg : Str) (h : ∀ c ∈ pkg, c ∉ [' ', '\t', '\n', CString.nul]) : FileList where
  pkg := pkg
  paths := ["usr/bin/x".toList]
  pkg_word := h
  path_line := fun p hp => List.mem_singleton.mp hp ▸ ⟨by simp, not_mem_of_all rfl⟩

/-- The packages `a` and `b` own the file that `c` reads. -/
def sharedLists : List FileList := [sharedBy ['a'] (not_mem_of_all rfl), sharedBy ['b'] (not_mem_of_all rfl)]

theorem shared_incomplete : ¬Complete ['c'] sharedLists ⟨[], fun _ => false⟩ ["usr/bin/x".toList] := by
  intro h
  have howner : ∃ p ∈ ["usr/bin/x".toList].filter listed, Owns ['c'] sharedLists ['a'] p :=
    ⟨"usr/bin/x".toList, by decide +kernel, by decide, _, List.mem_cons_self, rfl, List.mem_singleton_self _⟩
  have hmissing : dependencyLine ['c'] ['a'] ∉
      dependencies ['c'] sharedLists ⟨[], fun _ => false⟩ ["usr/bin/x".toList] := by
    decide +kernel
  exact hmissing ((h ['a'] ⟨by simp, rfl⟩).mpr howner)

end T2SDE.FileDependencies
