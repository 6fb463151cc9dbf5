import Mathlib.Algebra.Ring.Nat
import Mathlib.Data.List.Perm.Basic

namespace Counts


variable {α : Type} {f g : α → Nat} {l : List α}

theorem eq_of_sum_le (hle : ∀ a ∈ l, f a ≤ g a) (hsum : (l.map g).sum ≤ (l.map f).sum) :
    ∀ a ∈ l, f a = g a := by
  have hsums : (l.map f).sum ≤ (l.map g).sum ∧ ((l.map g).sum ≤ (l.map f).sum → ∀ a ∈ l, f a = g a) := by
    clear hsum
    induction l with
    | nil => simp
    | cons a l ih =>
      obtain ⟨hrest, heq⟩ := ih fun b hb => hle b (by simp [hb])
      have ha : f a ≤ g a := hle a (by simp)
      simp only [List.map_cons, List.sum_cons, List.forall_mem_cons]
      refine ⟨by omega, fun h => ⟨by omega, heq (by omega)⟩⟩
  exact hsums.2 hsum

/-- Two numberings, one below the other, that take every value equally often agree. -/
theorem eq_of_counts (hle : ∀ a ∈ l, f a ≤ g a)
    (hcount : ∀ x, (l.filter fun a => decide (f a = x)).length =
    (l.filter fun a => decide (g a = x)).length) :
    ∀ a ∈ l, f a = g a := by
  have hperm : (l.map f).Perm (l.map g) := by
    rw [List.perm_iff_count]
    intro x
    have hx := hcount x
    rw [← List.countP_eq_length_filter, ← List.countP_eq_length_filter] at hx
    rw [List.count_eq_countP, List.count_eq_countP, List.countP_map, List.countP_map]
    simpa [Function.comp_def, beq_eq_decide] using hx
  exact eq_of_sum_le hle (Nat.le_of_eq hperm.sum_nat.symm)

theorem flatMap_filter_perm (n : Nat) :
    ((List.range' 1 n).flatMap fun x => l.filter fun a => decide (f a = x)).Perm
      (l.filter fun a => decide (1 ≤ f a ∧ f a ≤ n)) := by
  induction n with
  | zero =>
    have hnone : (l.filter fun a => decide (1 ≤ f a ∧ f a ≤ 0)) = [] := by
      rw [List.filter_eq_nil_iff]
      intro a _ h
      have h := of_decide_eq_true h
      omega
    rw [hnone]
    exact List.Perm.nil
  | succ n ih =>
    have hlow : (l.filter fun a => decide (1 ≤ f a ∧ f a ≤ n)) =
        (l.filter fun a => decide (1 ≤ f a ∧ f a ≤ n + 1)).filter fun a => decide (f a ≤ n) := by
      rw [List.filter_filter]
      apply List.filter_congr
      intro a _
      rw [← Bool.decide_and, decide_eq_decide]
      omega
    have hhigh : (l.filter fun a => decide (f a = 1 + n)) =
        (l.filter fun a => decide (1 ≤ f a ∧ f a ≤ n + 1)).filter fun a => !decide (f a ≤ n) := by
      rw [List.filter_filter]
      apply List.filter_congr
      intro a _
      rw [← decide_not, ← Bool.decide_and, decide_eq_decide]
      omega
    rw [List.range'_1_concat, List.flatMap_append, List.flatMap_singleton, hhigh]
    refine (ih.append_right _).trans ?_
    rw [hlow]
    exact List.filter_append_perm _ _

end Counts
