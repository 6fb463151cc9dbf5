import Mathlib.Logic.Function.Iterate
import Mathlib.Logic.Relation

namespace Run

open Relation

variable {σ : Type} {step : σ → σ → Prop}

/-- If every good state that is not final can be followed by a good one of smaller measure,
some good state is final. -/
theorem exists_final {good final : σ → Prop} (measure : σ → Nat)
    (progress : ∀ s, good s → final s ∨ ∃ t, good t ∧ measure t < measure s) {s : σ} (hs : good s) :
    ∃ t, good t ∧ final t := by
  induction hm : measure s using Nat.strongRecOn generalizing s with
  | _ n ih =>
    rcases progress s hs with hf | ⟨t, ht, hlt⟩
    · exact ⟨s, hs, hf⟩
    · exact ih (measure t) (hm ▸ hlt) ht rfl

/-- The same for a function that makes the steps, with a measure in a well-founded order. -/
theorem exists_final_iterate {β : Type} {f : σ → σ} {good final : σ → Prop} {r : β → β → Prop}
    (wf : WellFounded r) (measure : σ → β)
    (progress : ∀ s, good s → final s ∨ good (f s) ∧ r (measure (f s)) (measure s)) {s : σ} (hs : good s) :
    ∃ n, final (f^[n] s) := by
  induction hm : measure s using wf.induction generalizing s with
  | _ m ih =>
    rcases progress s hs with hfinal | ⟨hgood, hless⟩
    · exact ⟨0, hfinal⟩
    · obtain ⟨n, hn⟩ := ih (measure (f s)) (hm ▸ hless) hgood rfl
      exact ⟨n + 1, hn⟩

theorem eq_of_stuck {s t : σ} (stuck : ∀ u, ¬step s u) (run : ReflTransGen step s t) : t = s := by
  rcases run.cases_head with h | ⟨u, hu, _⟩
  · exact h.symm
  · exact absurd hu (stuck u)

theorem length_filter_lt {α : Type} {p q : α → Bool} {l : List α}
    (hpq : ∀ x ∈ l, p x = true → q x = true) {x : α} (hx : x ∈ l) (hq : q x = true)
    (hp : p x = false) : (l.filter p).length < (l.filter q).length := by
  have hfilter : l.filter p = (l.filter q).filter p := by
    rw [List.filter_filter]
    apply List.filter_congr
    intro y hy
    cases hpy : p y with
    | true => simp [hpq y hy hpy]
    | false => simp
  rw [hfilter]
  exact List.length_filter_lt_length_iff_exists.mpr ⟨x, List.mem_filter.mpr ⟨hx, hq⟩, by simp [hp]⟩

end Run
