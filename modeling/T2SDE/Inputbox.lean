import Mathlib.Data.List.DropRight
import T2SDE.Lib.Text

namespace T2SDE.Config

open Text

/-- `MAX_LEN`: the characters that the buffer of the dialog holds. -/
def maxLen : Nat := 2048

/-- How the user leaves the dialog. -/
inductive Answer where
  | ok (text : Str)
  | cancel
  | escape

/-- What `fprintf` writes for a format without arguments; none where it would read one. -/
def fprintf : Str → Option Str
  | [] => some []
  | '%' :: '%' :: s => (fprintf s).map ('%' :: ·)
  | c :: s => if c = '%' then none else (fprintf s).map (c :: ·)

/-- The exit status of the dialog and what it writes to `config.out`; none where the initial text does not fit
into the buffer or the result is no format. -/
def jInputbox (init : Str) (user : Str → Answer) : Option (Nat × Str) :=
  if init.length ≤ maxLen then
    match user init with
    | .ok text => (fprintf text).map fun out => (0, out)
    | .cancel => some (1, [])
    | .escape => some (255, [])
  else none

/-- `$(< file)` -/
def substitution (s : Str) : Str := s.rdropWhile (· == '\n')

section Format

variable {s out : Str} {c : Char}

theorem fprintf_cons (hc : c ≠ '%') (s : Str) : fprintf (c :: s) = (fprintf s).map (c :: ·) := by
  rw [fprintf, if_neg hc]
  exact fun _ h => absurd h hc

theorem fprintf_plain (h : '%' ∉ s) : fprintf s = some s := by
  induction s with
  | nil => rfl
  | cons c s ih =>
    rw [List.mem_cons, not_or] at h
    rw [fprintf_cons (Ne.symm h.1), ih h.2]
    rfl

theorem length_fprintf (h : fprintf s = some out) :
    out.length ≤ s.length ∧ ('%' ∈ s → out.length < s.length) := by
  fun_induction fprintf s generalizing out with
  | case1 =>
    obtain rfl := Option.some.inj h
    exact ⟨Nat.le_refl _, fun hmem => absurd hmem (by simp)⟩
  | case2 s ih =>
    obtain ⟨v, hv, rfl⟩ := Option.map_eq_some_iff.mp h
    have := (ih hv).1
    simp only [List.length_cons]
    exact ⟨by omega, fun _ => by omega⟩
  | case3 => exact absurd h (by simp)
  | case4 c s _ hc ih =>
    obtain ⟨v, hv, rfl⟩ := Option.map_eq_some_iff.mp h
    have ⟨hle, hlt⟩ := ih hv
    rw [List.length_cons, List.length_cons]
    refine ⟨Nat.succ_le_succ hle, fun hmem => Nat.succ_lt_succ (hlt ?_)⟩
    exact (List.mem_cons.mp hmem).resolve_left (Ne.symm hc)

theorem mem_fprintf (h : fprintf s = some out) (hc : c ∈ out) : c ∈ s := by
  fun_induction fprintf s generalizing out with
  | case1 =>
    obtain rfl := Option.some.inj h
    exact hc
  | case2 s ih =>
    obtain ⟨v, hv, rfl⟩ := Option.map_eq_some_iff.mp h
    rcases List.mem_cons.mp hc with rfl | hc
    · exact List.mem_cons_self
    · exact List.mem_cons_of_mem _ (List.mem_cons_of_mem _ (ih hv hc))
  | case3 => exact absurd h (by simp)
  | case4 d s _ hd ih =>
    obtain ⟨v, hv, rfl⟩ := Option.map_eq_some_iff.mp h
    rcases List.mem_cons.mp hc with rfl | hc
    · exact List.mem_cons_self
    · exact List.mem_cons_of_mem d (ih hv hc)

theorem length_substitution (s : Str) : (substitution s).length ≤ s.length := by
  have hinit := List.rdropWhile_prefix (· == '\n') s
  exact hinit.length_le

theorem substitution_free (h : '\n' ∉ s) : substitution s = s := by
  refine List.rdropWhile_eq_self_iff.mpr fun hne hlast => ?_
  have hlast : s.getLast hne = '\n' := by simpa using hlast
  exact h (hlast ▸ List.getLast_mem hne)

end Format

/-- A text comes back as it is exactly if it has no `%`. -/
theorem fprintf_substitution {s : Str} (h : '\n' ∉ s) : (fprintf s).map substitution = some s ↔ '%' ∉ s := by
  constructor
  · intro hout hmem
    obtain ⟨out, hout, heq⟩ := Option.map_eq_some_iff.mp hout
    have hlt := (length_fprintf hout).2 hmem
    have hle := length_substitution out
    rw [heq] at hle
    omega
  · intro hfree
    rw [fprintf_plain hfree, Option.map_some, substitution_free h]

end T2SDE.Config
