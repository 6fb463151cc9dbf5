import T2SDE.FileList
import T2SDE.Lib.Removal
import T2SDE.Lib.ShellRead
import T2SDE.Lib.StableSort

namespace T2SDE.UninstallPkg

open Text PathName FileTree StableSort ShellRead

section Program

/-- A package's file list, and the tree with the root directory. -/
structure Input where
  store : Store
  root : Loc
  rootDir : store.entry root = some .dir
  list : FileList
  sorted : (list.paths.map (FileList.entry list.pkg)).Pairwise fun a b => LineLe a b ∧ a ≠ b
  /-- `fl_wrparse` prints the names below the root directory -/
  names : ∀ p ∈ list.paths, p = ['/'].intercalate (components p) ∧ ∀ c ∈ components p, IsName c

/-- `cut -d ' ' -f 2-` -/
def cutFields (line : Str) : Str := if ' ' ∈ line then (line.dropWhile (· != ' ')).drop 1 else line

/-- What `tac` prints. -/
def listing (list : FileList) : Str :=
  ((list.paths.map (FileList.entry list.pkg)).map cutFields).reverse.flatMap (· ++ ['\n'])

/-- `read fn` -/
def readName (line : List Item) : Str := ((line.dropWhile isSep).rdropWhile isSep).map Prod.fst

/-- `[ -d "$fn" ]` -/
def isDir (s : Store) (root : Loc) (fn : Str) : Bool := (chdir s.tree root fn).isSome

/-- Whether `rm` and `rmdir` take an argument for an option. -/
def isOption (fn : Str) : Bool := fn.head? == some '-' && fn != ['-']

/-- `rmdir "$fn"` -/
def rmdir (root : Loc) (s : Store) (fn : Str) : Store :=
  if isOption fn = true ∨ (components fn).getLast? = some ['.'] then s
  else (locate s.tree root fn).elim s s.rmdir

/-- `rm -f "$fn"`; a name with a slash at its end is none of a file. -/
def rm (root : Loc) (s : Store) (fn : Str) : Store :=
  if isOption fn = true ∨ fn.getLast? = some '/' then s else (locate s.tree root fn).elim s s.unlink

def step (root : Loc) (s : Store) (fn : Str) : Store :=
  if isDir s root fn = true then rmdir root s fn else rm root s fn

def uninstall_pkg (i : Input) : Store :=
  ((readLines [] (listing i.list)).map readName).foldl (step i.root) i.store

end Program

section Statement

def place (i : Input) (p : Str) : Loc := i.root ++ components p

/-- All that is listed is gone, but for directories with something else in them, and all else is there. -/
structure Complete (i : Input) : Prop where
  files : ∀ p ∈ i.list.paths, i.store.entry (place i p) ≠ some .dir →
    (uninstall_pkg i).entry (place i p) = none
  dirs : ∀ p ∈ i.list.paths,
    (∀ l ≠ [], (i.store.entry (place i p ++ l)).isSome → ∃ q ∈ i.list.paths, place i q = place i p ++ l) →
    (uninstall_pkg i).entry (place i p) = none
  others : ∀ loc, (∀ p ∈ i.list.paths, loc ≠ place i p) → (uninstall_pkg i).entry loc = i.store.entry loc

/-- The names are read as they stand, and name nothing elsewhere. -/
structure Regular (i : Input) : Prop where
  read : ∀ p ∈ i.list.paths, '\\' ∉ p ∧ (∀ c, p.head? = some c → isBlank c = false) ∧
    ∀ c, p.getLast? = some c → isBlank c = false
  operand : ∀ p ∈ i.list.paths, isOption p = false
  direct : ∀ p ∈ i.list.paths, ∀ loc, locate i.store.tree i.root p = some loc → loc = place i p

end Statement

section Steps

variable {i : Input} {p q : Str} {s : Store} {loc : Loc}

/-- What is left of the tree, with the root directory. -/
structure Below (i : Input) (s : Store) : Prop where
  entry : ∀ loc, s.entry loc = i.store.entry loc ∨ s.entry loc = none
  root : s.entry i.root = some .dir

theorem components_ne (hp : p ∈ i.list.paths) : components p ≠ [] := by
  intro hnil
  have hp' := (i.names p hp).1
  rw [hnil] at hp'
  exact FileList.path_ne_nil hp hp'

theorem place_ne_root (hp : p ∈ i.list.paths) : place i p ≠ i.root := by
  intro heq
  have hlen := congrArg List.length heq
  rw [place, List.length_append] at hlen
  exact components_ne hp (List.length_eq_zero_iff.mp (by omega))

/-- A path has no slash at its ends. -/
theorem path_ends (hp : p ∈ i.list.paths) : p.head? ≠ some '/' ∧ p.getLast? ≠ some '/' := by
  obtain ⟨hp', hnames⟩ := i.names p hp
  constructor
  · obtain ⟨c, cs, hcs⟩ := List.exists_cons_of_ne_nil (components_ne hp)
    rw [hcs] at hp' hnames
    obtain ⟨⟨hne, hslash⟩, -⟩ := hnames c List.mem_cons_self
    obtain ⟨d, c, rfl⟩ := List.exists_cons_of_ne_nil hne
    have hhead : p.head? = some d := by
      cases cs with
      | nil => rw [hp']; simp [List.intercalate]
      | cons e cs => rw [hp', intercalate_cons]; rfl
    rw [hhead]
    exact fun heq => hslash (Option.some.inj heq ▸ List.mem_cons_self)
  · rcases List.eq_nil_or_concat (components p) with hnil | ⟨front, last, hcs⟩
    · exact absurd hnil (components_ne hp)
    · rw [List.concat_eq_append] at hcs
      rw [hcs] at hp' hnames
      obtain ⟨⟨hne, hslash⟩, -⟩ := hnames last (by simp)
      have hlast : p.getLast? = last.getLast? := by
        by_cases hfront : front = []
        · rw [hp', hfront]
          simp [List.intercalate]
        · rw [hp', intercalate_concat _ hfront, List.getLast?_append_of_ne_nil _ (List.cons_ne_nil _ _)]
          obtain ⟨d, last, rfl⟩ := List.exists_cons_of_ne_nil hne
          exact List.getLast?_cons_cons
      rw [hlast]
      exact fun heq => hslash (List.mem_of_getLast? heq)

theorem getLast_ne_dot (hp : p ∈ i.list.paths) : (components p).getLast? ≠ some ['.'] := by
  intro hlast
  exact ((i.names p hp).2 _ (List.mem_of_getLast? hlast)).2.1 rfl

theorem Regular.locate (h : Regular i) (hp : p ∈ i.list.paths) (hs : Below i s) :
    locate s.tree i.root p = if (s.entry (place i p)).isSome then some (place i p) else none := by
  split
  next hsome => exact locate_place hs.root (components_ne hp) (path_ends hp).1 (i.names p hp).2 hsome
  next hnone =>
    cases hloc : FileTree.locate s.tree i.root p with
    | none => rfl
    | some loc =>
      have hplace := h.direct p hp loc (locate_sub hs.entry hloc)
      rw [← hplace] at hnone
      exact absurd (locate_entry hloc) hnone

/-- Whether what a path names is removed in its turn. -/
def goes (i : Input) (s : Store) (p : Str) : Bool :=
  match s.entry (place i p) with
  | some .dir => s.isEmpty (place i p)
  | some (.link _) => !isDir s i.root p
  | _ => true

theorem isDir_dir (hp : p ∈ i.list.paths) (hentry : s.entry (place i p) = some .dir) :
    isDir s i.root p = true := by
  have hstart : start p i.root = i.root := if_neg (path_ends hp).1
  have hwalk : walk s.tree maxLinks i.root (components p) = some (place i p) := walk_down hentry maxLinks
  rw [isDir, chdir, if_neg (FileList.path_ne_nil hp), hstart, hwalk]
  rfl

theorem isDir_file (hp : p ∈ i.list.paths) (hs : Below i s) (hentry : s.entry (place i p) = some .file) :
    isDir s i.root p = false := by
  have hstart : start p i.root = i.root := if_neg (path_ends hp).1
  have hwalk : walk s.tree maxLinks i.root (components p) = none := by
    rw [walk_names maxLinks hs.root (i.names p hp).2, if_neg]
    · intro hdir
      cases hentry.symm.trans hdir
    · intro front hfront target hlink
      obtain ⟨back, hback⟩ := hfront
      have hsome : s.tree.entry ((i.root ++ front) ++ back) = some .file := by
        rw [List.append_assoc, hback]
        exact hentry
      by_cases hnil : back = []
      · rw [hnil, List.append_nil, hlink] at hsome
        cases hsome
      · rw [s.tree.above_dir hnil (by rw [hsome]; rfl)] at hlink
        cases hlink
  rw [isDir, chdir, if_neg (FileList.path_ne_nil hp), hstart, hwalk]
  rfl

/-- The body of the loop. -/
theorem Regular.step (h : Regular i) (hp : p ∈ i.list.paths) (hs : Below i s) (l : Loc) :
    (step i.root s p).entry l = if l = place i p ∧ goes i s p = true then none else s.entry l := by
  have hne : place i p ≠ [] := fun hnil => components_ne hp (List.append_eq_nil_iff.mp hnil).2
  have hrmdir : rmdir i.root s p = (FileTree.locate s.tree i.root p).elim s s.rmdir :=
    if_neg (by simp [h.operand p hp, getLast_ne_dot hp])
  have hrm : rm i.root s p = (FileTree.locate s.tree i.root p).elim s s.unlink :=
    if_neg (by simp [h.operand p hp, (path_ends hp).2])
  rw [UninstallPkg.step, hrmdir, hrm, h.locate hp hs]
  cases hentry : s.entry (place i p) with
  | none =>
    simp only [Option.isSome_none, Bool.false_eq_true, if_false, Option.elim_none, ite_self]
    by_cases hl : l = place i p
    · rw [hl, hentry, ite_self]
    · rw [if_neg fun hcond => hl hcond.1]
  | some e =>
    simp only [Option.isSome_some, if_true, Option.elim_some]
    cases e with
    | file =>
      rw [isDir_file hp hs hentry, if_neg Bool.false_ne_true, Store.entry_unlink, hentry, goes, hentry]
      simp
    | dir =>
      rw [isDir_dir hp hentry, if_pos rfl, Store.entry_rmdir, hentry, goes, hentry]
      simp [hne]
    | link target =>
      rw [goes, hentry]
      cases hdir : isDir s i.root p with
      | false =>
        rw [if_neg Bool.false_ne_true, Store.entry_unlink, hentry]
        simp
      | true =>
        rw [if_pos rfl, Store.entry_rmdir, hentry]
        simp

theorem Regular.removes (h : Regular i) {l : List Str} (hl : l ⊆ i.list.paths) :
    Removes (UninstallPkg.step i.root) (place i) (goes i) (Below i) l where
  entry s hs p hp := h.step (hl hp) hs
  inv s hs p hp := by
    refine ⟨fun loc => ?_, ?_⟩
    · rw [h.step (hl hp) hs]
      split
      · exact .inr rfl
      · exact hs.entry loc
    · rw [h.step (hl hp) hs, if_neg fun hcond => place_ne_root (hl hp) hcond.1.symm]
      exact hs.root

end Steps

section Runs

variable {i : Input} {p q : Str} {front back : List Str} {loc : Loc}

theorem sorted_paths (i : Input) : i.list.paths.Pairwise fun p q => LineLe p q ∧ p ≠ q := by
  refine (List.pairwise_map.mp i.sorted).imp fun {p q} hpq => ⟨?_, fun heq => hpq.2 (heq ▸ rfl)⟩
  have hentry : ∀ p, FileList.entry i.list.pkg p = (i.list.pkg ++ [':', ' ']) ++ p := fun p => by
    simp [FileList.entry]
  have hle := hpq.1
  rwa [LineLe, hentry, hentry, textLe_append_left] at hle

/-- What a directory has stands in front of it. -/
theorem child_before (hturn : i.list.paths.reverse = front ++ p :: back) (c : Str) :
    ∀ q ∈ p :: back, place i p ++ [c] ≠ place i q := by
  intro q hq heq
  have hp : p ∈ i.list.paths := List.mem_reverse.mp (hturn ▸ List.mem_append_right front List.mem_cons_self)
  have hqmem : q ∈ i.list.paths := List.mem_reverse.mp (hturn ▸ List.mem_append_right front hq)
  have hle : LineLe q p := by
    have hsorted := List.pairwise_reverse.mpr (sorted_paths i)
    rw [hturn, List.pairwise_append] at hsorted
    rcases List.mem_cons.mp hq with rfl | hq
    · exact textLe_refl q
    · exact ((List.pairwise_cons.mp hsorted.2.1).1 q hq).1
  have hq' : q = p ++ '/' :: c := by
    rw [place, place, List.append_assoc] at heq
    rw [(i.names q hqmem).1, ← List.append_cancel_left heq, intercalate_concat _ (components_ne hp),
      ← (i.names p hp).1]
  have hsame : q = p := textLe_antisymm hle (hq' ▸ textLe_isPrefix p _)
  rw [hsame] at hq'
  have hlen := congrArg List.length hq'
  rw [List.length_append, List.length_cons] at hlen
  omega

end Runs

section Samples

def usr : Str := ['u', 's', 'r']

def libPath : Str := ['l', 'i', 'b']

def filePath : Str := ['u', 's', 'r', '/', 'f']

def linkPath : Str := ['u', 's', 'r', '/', 'l']

/-- A directory with a file and a link to nothing. -/
def plainTree : List (Loc × FileTree.Entry) :=
  [([usr], .dir), ([usr, ['f']], .file), ([usr, ['l']], .link ['x'])]

/-- A directory and a link to it. -/
def linkTree : List (Loc × FileTree.Entry) := [([usr], .dir), ([libPath], .link usr)]

theorem plainTree_consistent : consistent plainTree = true := by decide +kernel

theorem linkTree_consistent : consistent linkTree = true := by decide +kernel

def sampleList (paths : List Str) (hpaths : ∀ p ∈ paths, p ≠ [] ∧ ∀ c ∈ p, c ∉ ['\n', CString.nul]) :
    FileList where
  pkg := ['p']
  paths := paths
  pkg_word c hc := by
    rw [List.mem_singleton.mp hc]
    decide
  path_line := hpaths

def isLine (p : Str) : Bool := p != [] && p.all fun c => c ∉ ['\n', CString.nul]

theorem line_of_all {paths : List Str} (h : paths.all isLine = true) :
    ∀ p ∈ paths, p ≠ [] ∧ ∀ c ∈ p, c ∉ ['\n', CString.nul] := by
  intro p hp
  have hone := List.all_eq_true.mp h p hp
  rw [isLine, Bool.and_eq_true, bne_iff_ne] at hone
  exact ⟨hone.1, fun c hc => of_decide_eq_true (List.all_eq_true.mp hone.2 c hc)⟩

def isNames (p : Str) : Bool := p == ['/'].intercalate (components p) && (components p).all fun c => IsName c

theorem names_of_all {paths : List Str} (h : paths.all isNames = true) :
    ∀ p ∈ paths, p = ['/'].intercalate (components p) ∧ ∀ c ∈ components p, IsName c := by
  intro p hp
  have hone := List.all_eq_true.mp h p hp
  rw [isNames, Bool.and_eq_true, beq_iff_eq] at hone
  exact ⟨hone.1, fun c hc => of_decide_eq_true (List.all_eq_true.mp hone.2 c hc)⟩

def plainInput : Input where
  store := .ofList plainTree plainTree_consistent
  root := []
  rootDir := rfl
  list := sampleList [usr, filePath, linkPath] (line_of_all rfl)
  sorted := by decide +kernel
  names := names_of_all rfl

def linkInput : Input where
  store := .ofList linkTree linkTree_consistent
  root := []
  rootDir := rfl
  list := sampleList [libPath] (line_of_all rfl)
  sorted := by decide +kernel
  names := names_of_all rfl

theorem plain_cases {p : Str} (hp : p ∈ plainInput.list.paths) : p = usr ∨ p = filePath ∨ p = linkPath := by
  rcases List.mem_cons.mp hp with rfl | hp
  · exact .inl rfl
  · rcases List.mem_cons.mp hp with rfl | hp
    · exact .inr (.inl rfl)
    · exact .inr (.inr (List.mem_singleton.mp hp))

theorem plain_locate {p : Str} (hp : p ∈ plainInput.list.paths) :
    locate plainInput.store.tree plainInput.root p = some (place plainInput p) := by
  rcases plain_cases hp with rfl | rfl | rfl
  · decide +kernel
  · decide +kernel
  · decide +kernel

theorem plainInput_regular : Regular plainInput where
  read p hp := by
    rcases plain_cases hp with rfl | rfl | rfl
    · exact ⟨by decide, fun c hc => by cases hc; rfl, fun c hc => by cases hc; rfl⟩
    · exact ⟨by decide, fun c hc => by cases hc; rfl, fun c hc => by cases hc; rfl⟩
    · exact ⟨by decide, fun c hc => by cases hc; rfl, fun c hc => by cases hc; rfl⟩
  operand p hp := by
    rcases plain_cases hp with rfl | rfl | rfl
    · rfl
    · rfl
    · rfl
  direct p hp loc hloc := Option.some.inj (hloc.symm.trans (plain_locate hp))

end Samples

end T2SDE.UninstallPkg
