import Mathlib.Data.List.DropRight
import T2SDE.Lib.Text

namespace PathName

open Text

def components (path : Str) : List Str := tokens (· == '/') path

/-- The place reached by one component of a path, as components from the root. -/
def enter (dir : List Str) (component : Str) : List Str :=
  if component = ['.'] then dir
  else if component = ['.', '.'] then dir.dropLast
  else dir ++ [component]

/-- The file that a path names from a directory. -/
def resolve (dir : List Str) (path : Str) : List Str := (components path).foldl enter dir

/-- What a path does to a directory: so many levels up, then down. -/
structure Move where
  up : Nat
  down : List Str

def Move.enter (m : Move) (component : Str) : Move :=
  if component = ['.'] then m
  else if component = ['.', '.'] then
    if m.down = [] then { m with up := m.up + 1 } else { m with down := m.down.dropLast }
  else { m with down := m.down ++ [component] }

def Move.apply (m : Move) (dir : List Str) : List Str := dir.rdrop m.up ++ m.down

def move (path : Str) : Move := (components path).foldl Move.enter ⟨0, []⟩

/-- The absolute path with these components. -/
def absolute (dir : List Str) : Str := '/' :: ['/'].intercalate dir

/-- A component as it stands between two slashes. -/
def IsComponent (component : Str) : Prop := component ≠ [] ∧ '/' ∉ component

variable {dir other : List Str} {path a b : Str} {m : Move} {component : Str}

theorem Move.apply_enter : (m.enter component).apply dir = PathName.enter (m.apply dir) component := by
  unfold Move.enter PathName.enter
  split_ifs with hdot hup hdown
  · rfl
  · have hlen : min (dir.length - m.up) dir.length - 1 = dir.length - (m.up + 1) := by omega
    simp only [Move.apply, hdown, List.append_nil, List.rdrop, List.dropLast_eq_take, List.take_take,
      List.length_take]
    rw [hlen, Nat.min_eq_left (by omega)]
  · simp [Move.apply, List.dropLast_append_of_ne_nil hdown]
  · simp [Move.apply]

theorem resolve_eq_apply (dir : List Str) (path : Str) : resolve dir path = (move path).apply dir := by
  have hfold : ∀ (m : Move) (cs : List Str),
      (cs.foldl Move.enter m).apply dir = cs.foldl enter (m.apply dir) := by
    intro m cs
    induction cs generalizing m with
    | nil => rfl
    | cons c cs ih => rw [List.foldl_cons, List.foldl_cons, ih, Move.apply_enter]
  have hstart : (⟨0, []⟩ : Move).apply dir = dir := by simp [Move.apply]
  rw [resolve, move, hfold, hstart]

/-- A path names the same file from two directories if they agree above the levels it climbs. -/
theorem resolve_eq_iff :
    resolve dir path = resolve other path ↔ dir.rdrop (move path).up = other.rdrop (move path).up := by
  rw [resolve_eq_apply, resolve_eq_apply, Move.apply, Move.apply, List.append_left_inj]

theorem resolve_append (dir : List Str) (a b : Str) :
    resolve dir (a ++ '/' :: b) = resolve (resolve dir a) b := by
  rw [resolve, components, tokens_append_sep rfl, List.foldl_append]
  rfl

/-- A path that never climbs stays below the directory it starts from. -/
theorem prefix_resolve (h : (move path).up = 0) : dir <+: resolve dir path := by
  rw [resolve_eq_apply, Move.apply, h]
  simp

theorem mem_components (h : component ∈ components path) : IsComponent component := by
  obtain ⟨hne, hfree⟩ := mem_tokens h
  exact ⟨hne, fun hslash => absurd (hfree _ hslash) (by decide)⟩

theorem components_absolute (h : ∀ c ∈ dir, IsComponent c) : components (absolute dir) = dir := by
  rw [components, absolute, tokens_cons_sep rfl]
  refine tokens_intercalate rfl fun c hc => ⟨(h c hc).1, fun d hd => ?_⟩
  have hne : d ≠ '/' := fun heq => (h c hc).2 (heq ▸ hd)
  simpa using hne

theorem absolute_inj (hdir : ∀ c ∈ dir, IsComponent c) (hother : ∀ c ∈ other, IsComponent c) :
    absolute dir = absolute other ↔ dir = other := by
  constructor
  · intro h
    rw [← components_absolute hdir, h, components_absolute hother]
  · exact congrArg absolute

/-- The path of an entry of a directory. -/
theorem absolute_snoc (h : ∀ c ∈ dir, IsComponent c) (name : Str) :
    absolute (dir ++ [name]) = (if absolute dir = ['/'] then [] else absolute dir) ++ '/' :: name := by
  have hroot : absolute dir = ['/'] ↔ dir = [] :=
    absolute_inj h (by simp : ∀ c ∈ ([] : List Str), IsComponent c)
  by_cases hdir : dir = []
  · rw [if_pos (hroot.mpr hdir), hdir]
    simp [absolute, List.intercalate]
  · rw [if_neg (mt hroot.mp hdir), absolute, absolute, intercalate_concat _ hdir, List.cons_append]

/-- Slashes behind a component are passed over. -/
theorem components_slash (hc : IsComponent component) (path : Str) :
    components (component ++ '/' :: path) = component :: components path := by
  have hfree : ∀ d ∈ component, (d == '/') = false := by
    intro d hd
    have hne : d ≠ '/' := fun heq => hc.2 (heq ▸ hd)
    simpa using hne
  rw [components, tokens_append_sep rfl, tokens_word hc.1 hfree, List.singleton_append]
  rfl

theorem components_dropWhile (path : Str) : components (path.dropWhile (· == '/')) = components path := by
  conv => rhs; rw [← List.takeWhile_append_dropWhile (p := (· == '/')) (l := path)]
  have hslashes : ∀ c ∈ path.takeWhile (· == '/'), (c == '/') = true := fun c hc =>
    List.mem_takeWhile_imp (p := fun d => d == '/') hc
  exact (tokens_append_left hslashes _).symm

theorem components_single (hc : IsComponent component) : components component = [component] := by
  refine tokens_word hc.1 fun d hd => ?_
  have hne : d ≠ '/' := fun heq => hc.2 (heq ▸ hd)
  simpa using hne

theorem enter_components (hdir : ∀ c ∈ dir, IsComponent c) (hc : IsComponent component) :
    ∀ c ∈ enter dir component, IsComponent c := by
  unfold enter
  split_ifs
  · exact hdir
  · exact fun c h => hdir c (List.dropLast_subset dir h)
  · intro c h
    rcases List.mem_append.mp h with h | h
    · exact hdir c h
    · rw [List.mem_singleton.mp h]
      exact hc

end PathName
