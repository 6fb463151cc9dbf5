import Mathlib.Data.Finset.Card
import Mathlib.Logic.Relation

namespace Chain

open Relation

variable {α : Type}

def Edge (next : α → Option α) (x y : α) : Prop := next x = some y

/-- The elements met from `x` on, up to the last one. -/
inductive Follows (next : α → Option α) : α → List α → Prop
  | last {x : α} (h : next x = none) : Follows next x [x]
  | step {x y : α} {l : List α} (h : next x = some y) (rest : Follows next y l) : Follows next x (x :: l)

variable {next : α → Option α} {x y : α} {l l' : List α}

theorem Follows.unique (h : Follows next x l) (h' : Follows next x l') : l = l' := by
  induction h generalizing l' with
  | last hnone =>
    cases h' with
    | last _ => rfl
    | step hsome _ =>
      rw [hnone] at hsome
      cases hsome
  | step hsome _ ih =>
    cases h' with
    | last hnone =>
      rw [hnone] at hsome
      cases hsome
    | step hsome' rest =>
      rw [hsome] at hsome'
      cases Option.some.inj hsome'
      rw [ih rest]

theorem Follows.head (h : Follows next x l) : ∃ rest, l = x :: rest := by
  cases h with
  | last _ => exact ⟨[], rfl⟩
  | step _ _ => exact ⟨_, rfl⟩

theorem Follows.mem_iff (h : Follows next x l) : y ∈ l ↔ ReflTransGen (Edge next) x y := by
  induction h with
  | last hnone =>
    rw [List.mem_singleton]
    constructor
    · rintro rfl
      exact .refl
    · intro hreach
      rcases hreach.cases_head with heq | ⟨z, hedge, -⟩
      · exact heq.symm
      · rw [Edge, hnone] at hedge
        cases hedge
  | step hsome _ ih =>
    rw [List.mem_cons, ih]
    constructor
    · rintro (rfl | hreach)
      · exact .refl
      · exact .head hsome hreach
    · intro hreach
      rcases hreach.cases_head with heq | ⟨z, hedge, hreach⟩
      · exact .inl heq.symm
      · rw [Edge, hsome] at hedge
        cases Option.some.inj hedge
        exact .inr hreach

/-- From each element met, the rest is met. -/
theorem Follows.suffix (h : Follows next x l) (hy : y ∈ l) : ∃ rest, Follows next y rest ∧ rest <:+ l := by
  induction h with
  | last hnone =>
    rw [List.mem_singleton.mp hy]
    exact ⟨_, .last hnone, List.suffix_refl _⟩
  | step hsome rest ih =>
    rcases List.mem_cons.mp hy with rfl | hy
    · exact ⟨_, .step hsome rest, List.suffix_refl _⟩
    · obtain ⟨l', hl', hsuffix⟩ := ih hy
      exact ⟨l', hl', hsuffix.trans (List.suffix_cons _ _)⟩

theorem Follows.nodup (h : Follows next x l) : l.Nodup := by
  induction h with
  | last _ => exact List.nodup_singleton _
  | @step x y l hsome rest ih =>
    refine List.nodup_cons.mpr ⟨fun hmem => ?_, ih⟩
    obtain ⟨l', hl', hsuffix⟩ := rest.suffix hmem
    rw [hl'.unique (.step hsome rest)] at hsuffix
    have hlen := hsuffix.length_le
    rw [List.length_cons] at hlen
    omega

end Chain
