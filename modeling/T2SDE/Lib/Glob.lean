import T2SDE.Lib.LuaSteps

namespace Lua

open Text

/-- Whether a pattern, in which `*` stands for any text, covers a text. -/
def glob : Str → Str → Bool
  | [], s => s.isEmpty
  | c :: g, s =>
    if c = '*' then s.tails.any (glob g)
    else
      match s with
      | [] => false
      | d :: s => c == d && glob g s

theorem glob_star (g s : Str) : glob ('*' :: g) s = true ↔ ∃ run rest,
    s = run ++ rest ∧ glob g rest = true := by
  simp only [glob, if_true, List.any_eq_true, List.mem_tails]
  constructor
  · rintro ⟨rest, ⟨run, hrun⟩, h⟩
    exact ⟨run, rest, hrun.symm, h⟩
  · rintro ⟨run, rest, rfl, h⟩
    exact ⟨rest, ⟨run, rfl⟩, h⟩

theorem glob_any (s : Str) : glob ['*'] s = true :=
  (glob_star [] s).mpr ⟨s, [], by simp, rfl⟩

theorem glob_literal {g : Str} (hg : '*' ∉ g) (s : Str) : glob g s = true ↔ s = g := by
  induction g generalizing s with
  | nil => simp [glob]
  | cons c g ih =>
    have hc : c ≠ '*' := fun h => hg (by simp [h])
    have ih := ih fun h => hg (by simp [h])
    cases s with
    | nil => simp [glob, hc]
    | cons d s =>
      simp only [glob, hc, if_false, Bool.and_eq_true, beq_iff_eq, ih, List.cons.injEq]
      exact and_congr_left' eq_comm

def globItem (cls : Char → CharClass) (c : Char) : Item :=
  if c = '*' then .single .any .star else .single (cls c) .one

theorem doMatch_glob {cls : Char → CharClass} {g : Str}
    (hcls : ∀ c ∈ g, c ≠ '*' → ∀ d, (cls c).admits d = (c == d)) (s : Str) (cs : List Capture) :
    (doMatch (g.map (globItem cls) ++ [.atEnd]) s cs).isSome = glob g s := by
  induction g generalizing s with
  | nil => cases s <;> rfl
  | cons c g ih =>
    have ih := ih fun x hx => hcls x (by simp [hx])
    by_cases hc : c = '*'
    · subst hc
      rw [Bool.eq_iff_iff, glob_star]
      simp only [List.map_cons, globItem, if_true, List.cons_append, doMatch, maxExpand_isSome, ih]
      simp [CharClass.admits]
    · have hclass := hcls c (by simp) hc
      cases s with
      | nil => simp [globItem, hc, glob]
      | cons d s =>
        simp only [List.map_cons, globItem, hc, if_false, List.cons_append, doMatch, glob, hclass]
        cases hd : c == d with
        | false => rfl
        | true => simpa using ih s

theorem free_glob (cls : Char → CharClass) (g : Str) :
    (g.map (globItem cls) ++ [Item.atEnd]).all Item.free = true := by
  rw [List.all_append, Bool.and_eq_true]
  refine ⟨List.all_eq_true.mpr fun i hi => ?_, rfl⟩
  obtain ⟨c, -, rfl⟩ := List.mem_map.mp hi
  rw [globItem]
  split
  next => rfl
  next => rfl

theorem strMatches_glob {cls : Char → CharClass} {g pattern : Str}
    (hcls : ∀ c ∈ g, c ≠ '*' → ∀ d, (cls c).admits d = (c == d))
    (hsteps : parseSteps (pattern.length + 1) pattern = (g.map (globItem cls) ++ [Item.atEnd]).map .item)
    (s : Str) :
    strMatches s ('^' :: pattern) = some (glob g s) := by
  have hparsed : parseSteps ('^' :: pattern).length (('^' :: pattern).drop 1) =
      (g.map (globItem cls) ++ [Item.atEnd]).map .item := hsteps
  rw [strMatches, if_pos List.head?_cons, hparsed, matchSteps_items (free_glob cls g),
    ← doMatch_glob hcls s []]
  cases doMatch (g.map (globItem cls) ++ [Item.atEnd]) s [] with
  | none => rfl
  | some found => rfl

end Lua
