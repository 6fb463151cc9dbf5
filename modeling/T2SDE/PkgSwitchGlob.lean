import T2SDE.PkgSel

namespace T2SDE

open Text Lua

section Loop

variable {r : Rule} {packages : List Package} {rep pkg : Str} {p : Package} {hit : Package → Option Bool}

theorem forall_split_cons {α : Type} {x : α} {xs : List α} {P : List α → α → Prop} :
    (∀ before y after, x :: xs = before ++ y :: after → P before y) ↔
      P [] x ∧ ∀ before y after, xs = before ++ y :: after → P (x :: before) y := by
  constructor
  · intro h
    refine ⟨h [] x xs rfl, fun before y after heq => ?_⟩
    exact h (x :: before) y after (congrArg (x :: ·) heq)
  · rintro ⟨hfirst, hrest⟩ before y after heq
    cases before with
    | nil =>
      obtain ⟨rfl, -⟩ := List.cons.inj heq
      exact hfirst
    | cons z before =>
      obtain ⟨rfl, htail⟩ := List.cons.inj heq
      exact hrest before y after htail

end Loop

section Switch

variable {r : Rule}

end Switch

end T2SDE
