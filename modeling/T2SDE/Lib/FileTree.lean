import T2SDE.Lib.PathName

namespace FileTree

open Text PathName

/-- A place in a file tree: the names on the way from the root directory. -/
abbrev Loc := List Str

inductive Entry
  | file
  | dir
  | link (target : Str)

/-- A name that a directory may have an entry for. -/
def IsName (c : Str) : Prop := IsComponent c ∧ c ≠ ['.'] ∧ c ≠ ['.', '.']

structure Tree where
  entry : Loc → Option Entry
  root : entry [] = some .dir
  parent : ∀ loc c, (entry (loc ++ [c])).isSome → entry loc = some .dir
  name : ∀ loc c, (entry (loc ++ [c])).isSome → IsName c

section Walk

variable (t : Tree)

/-- Where a path begins. -/
def start (path : Str) (cwd : Loc) : Loc := if path.head? = some '/' then [] else cwd

/-- The directory that some names lead to; symbolic links are left to `follow`. -/
def walkFrom (follow : Loc → List Str → Option Loc) : Loc → List Str → Option Loc
  | cur, [] => some cur
  | cur, c :: cs =>
    if c = ['.'] then walkFrom follow cur cs
    else if c = ['.', '.'] then walkFrom follow cur.dropLast cs
    else
      match t.entry (cur ++ [c]) with
      | some .dir => walkFrom follow (cur ++ [c]) cs
      | some (.link target) => follow (start target cur) (components target ++ cs)
      | _ => none

/-- The directory that some names lead to through so many symbolic links at most. -/
def walk : Nat → Loc → List Str → Option Loc
  | 0 => walkFrom t fun _ _ => none
  | n + 1 => walkFrom t (walk n)

def maxLinks : Nat := 40

/-- The working directory after `chdir`, if it succeeds. -/
def chdir (cwd : Loc) (path : Str) : Option Loc :=
  if path = [] then none else walk t maxLinks (start path cwd) (components path)

/-- The place of what a path without a slash at its end names, as `lstat` finds it. -/
def locate (cwd : Loc) (path : Str) : Option Loc :=
  if path = [] then none
  else
    match (components path).getLast? with
    | none => some []
    | some last =>
      (walk t maxLinks (start path cwd) (components path).dropLast).bind fun dir =>
        if (t.entry (enter dir last)).isSome then some (enter dir last) else none

end Walk

section Facts

variable {t : Tree} {cur loc : Loc} {cs : List Str} {n : Nat} {path : Str}

theorem Tree.dropLast_dir (h : t.entry cur = some .dir) : t.entry cur.dropLast = some .dir := by
  rcases List.eq_nil_or_concat cur with rfl | ⟨l, c, rfl⟩
  · exact h
  · rw [List.concat_eq_append] at h ⊢
    rw [List.dropLast_concat]
    exact t.parent l c (by rw [h]; rfl)

theorem Tree.prefix_dir {a b : Loc} (h : t.entry (a ++ b) = some .dir) : t.entry a = some .dir := by
  induction b using List.reverseRecOn with
  | nil => rwa [List.append_nil] at h
  | append_singleton b c ih =>
    rw [← List.append_assoc] at h
    exact ih (t.parent _ c (by rw [h]; rfl))

theorem Tree.names (h : (t.entry loc).isSome) : ∀ c ∈ loc, IsName c := by
  induction loc using List.reverseRecOn with
  | nil => simp
  | append_singleton l c ih =>
    intro d hd
    rcases List.mem_append.mp hd with hd | hd
    · exact ih (by rw [t.parent l c h]; rfl) d hd
    · rw [List.mem_singleton.mp hd]
      exact t.name l c h

theorem start_dir (h : t.entry cur = some .dir) (path : Str) : t.entry (start path cur) = some .dir := by
  unfold start
  split
  · exact t.root
  · exact h

theorem walkFrom_dir {follow : Loc → List Str → Option Loc}
    (hfollow : ∀ {cur cs loc}, t.entry cur = some .dir → follow cur cs = some loc → t.entry loc = some .dir)
    (hcur : t.entry cur = some .dir) (h : walkFrom t follow cur cs = some loc) : t.entry loc = some .dir := by
  induction cs generalizing cur with
  | nil =>
    obtain rfl := Option.some.inj h
    exact hcur
  | cons c cs ih =>
    rw [walkFrom] at h
    split_ifs at h
    · exact ih hcur h
    · exact ih (t.dropLast_dir hcur) h
    · split at h
      next hentry => exact ih hentry h
      next target _ => exact hfollow (start_dir hcur target) h
      next => cases h

/-- A walk from a directory ends in a directory. -/
theorem walk_dir (hcur : t.entry cur = some .dir) (h : walk t n cur cs = some loc) :
    t.entry loc = some .dir := by
  induction n generalizing cur cs loc with
  | zero => exact walkFrom_dir (fun _ h => by cases h) hcur h
  | succ n ih => exact walkFrom_dir ih hcur h

theorem walkFrom_down {follow : Loc → List Str → Option Loc} (h : t.entry (cur ++ cs) = some .dir) :
    walkFrom t follow cur cs = some (cur ++ cs) := by
  induction cs generalizing cur with
  | nil => rw [walkFrom, List.append_nil]
  | cons c cs ih =>
    have happend : cur ++ c :: cs = (cur ++ [c]) ++ cs := by simp
    rw [happend] at h ⊢
    have hc := t.prefix_dir h
    have hname := t.name cur c (by rw [hc]; rfl)
    rw [walkFrom, if_neg hname.2.1, if_neg hname.2.2, hc]
    exact ih h

/-- The names of a directory lead to it. -/
theorem walk_down (h : t.entry (cur ++ cs) = some .dir) (n : Nat) : walk t n cur cs = some (cur ++ cs) := by
  cases n with
  | zero => exact walkFrom_down h
  | succ n => exact walkFrom_down h

theorem chdir_dir (hcur : t.entry cur = some .dir) (h : chdir t cur path = some loc) :
    t.entry loc = some .dir := by
  unfold chdir at h
  split at h
  · cases h
  · exact walk_dir (start_dir hcur path) h

/-- `chdir` with the name that `getcwd` gives goes back. -/
theorem chdir_absolute (h : t.entry loc = some .dir) (cwd : Loc) : chdir t cwd (absolute loc) = some loc := by
  have hnames : ∀ c ∈ loc, IsComponent c := fun c hc => (t.names (by rw [h]; rfl) c hc).1
  have hstart : start (absolute loc) cwd = [] := rfl
  have hne : absolute loc ≠ [] := List.cons_ne_nil _ _
  rw [chdir, if_neg hne, hstart, components_absolute hnames]
  exact walk_down h maxLinks

end Facts

end FileTree
