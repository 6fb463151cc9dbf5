import Mathlib.Data.List.Dedup
import Mathlib.Data.List.Sort
import T2SDE.Lib.SimplePath
import T2SDE.Lib.StableSort
import T2SDE.Lib.Text

namespace T2SDE.Depcheck

open Text StableSort SimplePath

/-- A package by its name: one word without the characters of a pattern. -/
@[ext]
structure Package where
  name : Str
  ne : name ≠ []
  plain : ∀ c ∈ name, c ∉ " \t\n*?[\\".toList
  deriving DecidableEq

/-- The error logs by their packages, and which of them mention a package. -/
structure Logs where
  packages : List Package
  mentions : Package → Package → Bool

section Functions

/-- `${s/word/}` -/
def removeFirst (word : Str) : Str → Str
  | [] => []
  | c :: s => if word.isPrefixOf (c :: s) then (c :: s).drop word.length else c :: removeFirst word s

/-- `grep -lwi name $logdir/*.err`, as names and sorted -/
def Logs.mentioning (logs : Logs) (name : Package) : List Package :=
  ((logs.packages.filter fun x => logs.mentions x name).dedup).insertionSort fun a b => LineLe a.name b.name

/-- The lines that are printed; nothing while it has not returned. -/
def depcheck (logs : Logs) : Nat → Str → Str → Package → Option (List Str)
  | 0, _, _, _ => none
  | fuel + 1, indent, path, name =>
    (collect ((logs.mentioning name).map fun x =>
      if x = name then some []
      else if removeFirst (pad x.name) path ≠ path then some []
      else depcheck logs fuel (indent ++ [' ', ' ']) (path ++ pad name.name) x)).map
        fun lines => (indent ++ "`---> ".toList ++ name.name) :: lines

/-- The calls that are made, with the packages of the calls around them. -/
inductive Call (logs : Logs) (pkg : Package) : List Package → Str → Str → Package → Prop
  | main : Call logs pkg [] [] [] pkg
  | inside {stack : List Package} {indent path : Str} {name x : Package}
  (call : Call logs pkg stack indent path name)
      (found : x ∈ logs.mentioning name) (other : x ≠ name) (new : removeFirst (pad x.name) path = path) :
      Call logs pkg (stack ++ [name]) (indent ++ [' ', ' ']) (path ++ pad name.name) x

/-- The line for the last package of a path. -/
def line (path : List Package) : Str :=
  List.replicate (2 * (path.length - 1)) ' ' ++ "`---> ".toList ++ (path.getLast?.map Package.name).getD []

end Functions

section Path

variable {logs : Logs} {pkg name x : Package} {stack path : List Package} {word s : Str}

theorem removeFirst_eq (hword : word ≠ []) : removeFirst word s = s ↔ ¬word <:+: s := by
  induction s with
  | nil => exact iff_of_true rfl fun h => hword (List.infix_nil.mp h)
  | cons c s ih =>
    rw [removeFirst, List.infix_cons_iff]
    split
    next h =>
      refine iff_of_false (fun heq => ?_) fun hnot => hnot (.inl (List.isPrefixOf_iff_prefix.mp h))
      have hlen := congrArg List.length heq
      rw [List.length_drop] at hlen
      have hpos := List.length_pos_iff.mpr hword
      rw [List.length_cons] at hlen
      omega
    next h =>
      rw [List.cons.injEq, and_iff_right rfl, ih, not_or]
      exact (and_iff_right fun hprefix => h (List.isPrefixOf_iff_prefix.mpr hprefix)).symm

theorem no_blank (name : Package) : ' ' ∉ name.name := fun hmem => name.plain ' ' hmem (by decide)

def pathText (path : List Package) : Str := path.flatMap fun name => pad name.name

theorem pathText_snoc (path : List Package) (name : Package) :
    pathText (path ++ [name]) = pathText path ++ pad name.name := by
  rw [pathText, List.flatMap_append, List.flatMap_singleton, pathText]

/-- The test with the text of a path finds exactly the packages on it. -/
theorem removeFirst_path (x : Package) (path : List Package) :
    removeFirst (pad x.name) (pathText path) = pathText path ↔ x ∉ path := by
  rw [removeFirst_eq (pad_ne_nil x.name), not_iff_not]
  constructor
  · intro hinfix
    rw [pathText, ← List.flatMap_map] at hinfix
    have hmem := mem_of_padded x.ne (no_blank x)
      (fun v hv => by obtain ⟨name, -, rfl⟩ := List.mem_map.mp hv; exact no_blank name) hinfix
    obtain ⟨name, hname, heq⟩ := List.mem_map.mp hmem
    rwa [← Package.ext heq]
  · intro hmem
    obtain ⟨before, after, rfl⟩ := List.append_of_mem hmem
    rw [pathText, List.flatMap_append, List.flatMap_cons]
    exact ⟨_, _, List.append_assoc _ _ _⟩

theorem mem_mentioning : x ∈ logs.mentioning name ↔ x ∈ logs.packages ∧ logs.mentions x name = true := by
  rw [Logs.mentioning, List.mem_insertionSort, List.mem_dedup, List.mem_filter]

theorem mentioning_nodup (logs : Logs) (name : Package) : (logs.mentioning name).Nodup :=
  (List.perm_insertionSort _ _).nodup_iff.mpr (List.nodup_dedup _)

end Path

section Walk

variable {logs : Logs} {pkg name x : Package} {stack path : List Package} {indent text : Str}

theorem collect_map {α β γ : Type} (g : β → γ) (f : α → Option (List β)) (ys : List α) :
    collect (ys.map fun y => (f y).map (List.map g)) = (collect (ys.map f)).map (List.map g) := by
  induction ys with
  | nil => rfl
  | cons y ys ih =>
    rw [List.map_cons, List.map_cons, collect, collect, ih]
    cases f y with
    | none => rfl
    | some xs =>
      cases collect (ys.map f) with
      | none => rfl
      | some zs => exact congrArg some (List.map_append.symm)

def indentOf (path : List Package) : Str := List.replicate (2 * path.length) ' '

theorem indentOf_snoc (path : List Package) (name : Package) :
    indentOf (path ++ [name]) = indentOf path ++ [' ', ' '] := by
  rw [indentOf, List.length_append, List.length_singleton, Nat.mul_add, List.replicate_add]
  rfl

theorem line_snoc (path : List Package) (name : Package) :
    line (path ++ [name]) = indentOf path ++ "`---> ".toList ++ name.name := by
  rw [line, List.length_append, List.length_singleton, Nat.add_sub_cancel, List.getLast?_append]
  rfl

/-- The lines printed are those of the paths found by the walk. -/
theorem depcheck_walk (logs : Logs) (fuel : Nat) (path : List Package) (name : Package) :
    depcheck logs fuel (indentOf path) (pathText path) name =
      (walk logs.mentioning fuel path name).map (List.map line) := by
  induction fuel generalizing path name with
  | zero => rfl
  | succ fuel ih =>
    have hbranch : ∀ x, (if x = name then some []
        else if removeFirst (pad x.name) (pathText path) ≠ pathText path then some []
        else depcheck logs fuel (indentOf path ++ [' ', ' ']) (pathText path ++ pad name.name) x) =
          (if x ∈ path ++ [name] then some [] else walk logs.mentioning fuel (path ++ [name]) x).map
            (List.map line) := by
      intro x
      rw [← indentOf_snoc, ← pathText_snoc, ih]
      by_cases hself : x = name
      · rw [if_pos hself, if_pos (List.mem_append_right path (List.mem_singleton.mpr hself))]
        rfl
      · by_cases hmem : x ∈ path
        · rw [if_neg hself, if_pos fun h => (removeFirst_path x path).mp h hmem,
            if_pos (List.mem_append_left _ hmem)]
          rfl
        · have hnot : x ∉ path ++ [name] := by
            rw [List.mem_append, List.mem_singleton]
            exact not_or.mpr ⟨hmem, hself⟩
          rw [if_neg hself, if_neg (not_not.mpr ((removeFirst_path x path).mpr hmem)), if_neg hnot]
    rw [depcheck, walk, List.map_congr_left fun x _ => hbranch x, collect_map, ← line_snoc, Option.map_map,
      Option.map_map]
    rfl

/-- What holds of every call. -/
theorem Call.inv (h : Call logs pkg stack indent text name) :
    indent = indentOf stack ∧ text = pathText stack ∧ (stack ++ [name]).Nodup := by
  induction h with
  | main => exact ⟨rfl, rfl, List.nodup_cons.mpr ⟨List.not_mem_nil, List.nodup_nil⟩⟩
  | @inside stack indent path name x call found other new ih =>
    obtain ⟨rfl, rfl, hnodup⟩ := ih
    refine ⟨(indentOf_snoc stack name).symm, (pathText_snoc stack name).symm, ?_⟩
    refine List.nodup_append.mpr ⟨hnodup, List.nodup_cons.mpr ⟨List.not_mem_nil, List.nodup_nil⟩, ?_⟩
    rintro a ha b hb rfl
    rw [List.mem_singleton.mp hb] at ha
    rcases List.mem_append.mp ha with ha | ha
    · exact (removeFirst_path x stack).mp new ha
    · exact other (List.mem_singleton.mp ha)

/-- A path of packages, each mentioned in the log of the next, that meets none twice. -/
structure MentionPath (logs : Logs) (pkg : Package) (path : List Package) : Prop where
  first : path.head? = some pkg
  steps : path.IsChain fun a b => b ∈ logs.packages ∧ logs.mentions b a = true
  once : path.Nodup

theorem simple_mentionPath (path : List Package) :
    Simple logs.mentioning [] pkg path ↔ MentionPath logs pkg path := by
  have hchain : ∀ path : List Package, path.IsChain (fun a b => b ∈ logs.mentioning a) ↔
      path.IsChain fun a b => b ∈ logs.packages ∧ logs.mentions b a = true := by
    intro path
    simp only [mem_mentioning]
  constructor
  · rintro ⟨⟨rest, rfl, hsteps⟩, honce⟩
    exact ⟨rfl, (hchain _).mp hsteps, honce⟩
  · rintro ⟨hfirst, hsteps, honce⟩
    obtain ⟨rest, rfl⟩ := List.head?_eq_some_iff.mp hfirst
    exact ⟨⟨rest, rfl, (hchain _).mpr hsteps⟩, honce⟩

/-- `depcheck` returns, no package is met again by the calls inside its own, and the lines are those
of the simple paths from the package, each once. -/
theorem depcheck_simple_paths (logs : Logs) (pkg : Package) :
    (∀ stack indent path name, Call logs pkg stack indent path name → (stack ++ [name]).Nodup) ∧
      ∃ paths : List (List Package), (∃ fuel, depcheck logs fuel [] [] pkg = some (paths.map line)) ∧
        paths.Nodup ∧ ∀ path, path ∈ paths ↔ MentionPath logs pkg path := by
  refine ⟨fun stack indent path name h => h.inv.2.2, ?_⟩
  have hall : ∀ x, ∀ y ∈ logs.mentioning x, y ∈ pkg :: logs.packages := fun x y hy =>
    List.mem_cons_of_mem _ (mem_mentioning.mp hy).1
  have hone : ([] ++ [pkg] : List Package).Nodup := List.nodup_cons.mpr ⟨List.not_mem_nil, List.nodup_nil⟩
  have hsub : [] ++ [pkg] ⊆ pkg :: logs.packages := List.cons_subset_cons _ (List.nil_subset _)
  obtain ⟨paths, hwalk, hnodup, hspec⟩ := walk_spec hall (mentioning_nodup logs)
    ((pkg :: logs.packages).length + 1) hone hsub (by simp)
  refine ⟨paths, ⟨(pkg :: logs.packages).length + 1, ?_⟩, hnodup, fun path =>
    (hspec path).trans (simple_mentionPath path)⟩
  have hlines := depcheck_walk logs ((pkg :: logs.packages).length + 1) [] pkg
  rw [hwalk] at hlines
  exact hlines

end Walk

end T2SDE.Depcheck
