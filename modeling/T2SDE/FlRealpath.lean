import T2SDE.FlWrapper

namespace T2SDE.FlWrapper

open Text

/-- Back to the slash in front of the last component; the first character stays. -/
def popComponent : Str → Str
  | [] => []
  | c :: dst => c :: dst.dropLast.rdropWhile (· != '/')

/-- The loop that removes `.` and `..` and repeated slashes. -/
def realpathLoop : Nat → Str → Str → Str
  | 0, dst, _ => dst
  | fuel + 1, dst, src =>
    if pathMax ≤ dst.length then dst
    else
      match src with
      | [] => dst
      | '/' :: '/' :: src => realpathLoop fuel (dst ++ ['/']) (src.dropWhile (· == '/'))
      | ['.', '.'] => popComponent dst
      | '.' :: '.' :: '/' :: src => realpathLoop fuel (popComponent dst) (src.dropWhile (· == '/'))
      | ['.'] => dst
      | '.' :: '/' :: src => realpathLoop fuel dst (src.dropWhile (· == '/'))
      | c :: src => realpathLoop fuel (dst ++ [c]) src

attribute [grind =] realpathLoop

/-- The trailing slashes, behind the first two characters. -/
def dropTrailing : Str → Str
  | c :: d :: dst => c :: d :: dst.rdropWhile (· == '/')
  | dst => dst

/-- `sort_of_realpath` of an absolute path; every turn of its loop takes a character off the path. -/
def sortOfRealpath (file : Str) : Str := dropTrailing (realpathLoop file.length [] file)

variable {fuel : Nat} {dst src file : Str} {c : Char}

theorem mem_popComponent (h : c ∈ popComponent dst) : c ∈ dst := by
  cases dst with
  | nil => exact h
  | cons d dst =>
    rcases List.mem_cons.mp h with rfl | h
    · simp
    · exact List.mem_cons_of_mem d (List.dropLast_subset dst ((List.rdropWhile_prefix _ _).subset h))

theorem mem_realpathLoop (h : c ∈ realpathLoop fuel dst src) : c ∈ dst ∨ c ∈ src := by
  induction fuel generalizing dst src with
  | zero => exact .inl h
  | succ fuel ih =>
    have hskip {s t : Str} (hc : c ∈ s.dropWhile (· == '/')) : c ∈ t ++ s :=
      List.mem_append_right t ((List.dropWhile_suffix _).subset hc)
    unfold realpathLoop at h
    split at h
    · exact .inl h
    split at h
    · exact .inl h
    · rcases ih h with h | h
      · rcases List.mem_append.mp h with h | h
        · exact .inl h
        · exact .inr (List.mem_cons.mpr (.inl (List.mem_singleton.mp h)))
      · exact .inr (hskip (t := ['/', '/']) h)
    · exact .inl (mem_popComponent h)
    · rcases ih h with h | h
      · exact .inl (mem_popComponent h)
      · exact .inr (hskip (t := ['.', '.', '/']) h)
    · exact .inl h
    · rcases ih h with h | h
      · exact .inl h
      · exact .inr (hskip (t := ['.', '/']) h)
    · rcases ih h with h | h
      · rcases List.mem_append.mp h with h | h
        · exact .inl h
        · exact .inr (List.mem_cons.mpr (.inl (List.mem_singleton.mp h)))
      · exact .inr (List.mem_cons_of_mem _ h)

theorem mem_dropTrailing (h : c ∈ dropTrailing dst) : c ∈ dst := by
  unfold dropTrailing at h
  split at h
  · rcases List.mem_cons.mp h with rfl | h
    · simp
    · rcases List.mem_cons.mp h with rfl | h
      · simp
      · exact List.mem_cons_of_mem _ (List.mem_cons_of_mem _ ((List.rdropWhile_prefix _ _).subset h))
  · exact h

theorem mem_sortOfRealpath (h : c ∈ sortOfRealpath file) : c ∈ file := by
  simpa using mem_realpathLoop (mem_dropTrailing h)

theorem head_popComponent (dst : Str) : (popComponent dst).head? = dst.head? := by
  cases dst <;> rfl

theorem head_dropTrailing (dst : Str) : (dropTrailing dst).head? = dst.head? := by
  unfold dropTrailing
  split <;> rfl

/-- What the loop has written keeps its first character. -/
theorem head_realpathLoop (h : dst.head? = some '/') : (realpathLoop fuel dst src).head? = some '/' := by
  induction fuel generalizing dst src with
  | zero => exact h
  | succ fuel ih =>
    have hpush (d : Char) : (dst ++ [d]).head? = some '/' := by simp [List.head?_append, h]
    have hpop : (popComponent dst).head? = some '/' := by rw [head_popComponent, h]
    unfold realpathLoop
    split
    · exact h
    split
    · exact h
    · exact ih (hpush _)
    · exact hpop
    · exact ih hpop
    · exact h
    · exact ih h
    · exact ih (hpush _)

theorem head_sortOfRealpath (h : file.head? = some '/') : (sortOfRealpath file).head? = some '/' := by
  obtain ⟨s, rfl⟩ : ∃ s, file = '/' :: s := by
    cases file with
    | nil => cases h
    | cons d s =>
      cases h
      exact ⟨s, rfl⟩
  rw [sortOfRealpath, head_dropTrailing, List.length_cons]
  unfold realpathLoop
  rw [if_neg (by decide)]
  split
  next heq => simp at heq
  next => exact head_realpathLoop rfl
  next heq => simp at heq
  next heq => simp at heq
  next heq => simp at heq
  next heq => simp at heq
  next heq =>
    cases heq
    exact head_realpathLoop rfl

end T2SDE.FlWrapper
