import Mathlib.Data.Finset.Card
import Mathlib.Data.Finset.Max
import Mathlib.Order.Defs.LinearOrder

namespace IntervalColoring

variable {ι τ : Type} [LinearOrder τ] {start stop : ι → τ} {color : ι → Nat} {l : List ι} {a b : ι} {p : τ}

def Covers (start stop : ι → τ) (p : τ) (a : ι) : Prop := start a ≤ p ∧ p ≤ stop a

instance : DecidablePred (Covers start stop p) :=
  fun a => inferInstanceAs (Decidable (start a ≤ p ∧ p ≤ stop a))

/-- How many intervals contain a point. -/
def depth (start stop : ι → τ) (l : List ι) (p : τ) : Nat := l.countP fun a => Covers start stop p a

/-- Each interval has the smallest color that none of those in front of it has that go on to its start. -/
structure Greedy (start stop : ι → τ) (color : ι → Nat) (l : List ι) : Prop where
  free : ∀ before a after, l = before ++ a :: after → ∀ b ∈ before, start a ≤ stop b → color b ≠ color a
  least : ∀ before a after, l = before ++ a :: after → ∀ k < color a, ∃ b ∈ before,
    start a ≤ stop b ∧ color b = k

/-- The number of colors. -/
def colors (color : ι → Nat) (l : List ι) : Nat := (l.map color).toFinset.card

/-- Intervals with a point in common have different colors. -/
theorem Greedy.proper (h : Greedy start stop color l) (p : τ) :
    (l.filter fun a => Covers start stop p a).Pairwise fun a b => color a ≠ color b := by
  refine List.pairwise_filter.mpr (List.pairwise_iff_forall_sublist.mpr fun {b a} hsub hb ha => ?_)
  obtain ⟨before, rest, rfl, hbefore, hrest⟩ := List.cons_sublist_iff.mp hsub
  obtain ⟨front, after, rfl⟩ := List.append_of_mem (List.singleton_sublist.mp hrest)
  have hsplit : before ++ (front ++ a :: after) = (before ++ front) ++ a :: after := by simp
  have hcovers := (of_decide_eq_true ha).1.trans (of_decide_eq_true hb).2
  exact h.free (before ++ front) a after hsplit b (List.mem_append_left front hbefore) hcovers

theorem length_le_colors {s : List ι} (hs : s ⊆ l) (hpairs : s.Pairwise fun a b => color a ≠ color b) :
    s.length ≤ colors color l := by
  have hnodup : (s.map color).Nodup := List.pairwise_map.mpr hpairs
  rw [← List.length_map color, ← List.toFinset_card_of_nodup hnodup]
  refine Finset.card_le_card fun c hc => ?_
  rw [List.mem_toFinset] at hc ⊢
  exact List.map_subset color hs hc

/-- No point is in more intervals than there are colors. -/
theorem Greedy.depth_le (h : Greedy start stop color l) (p : τ) : depth start stop l p ≤ colors color l := by
  rw [depth, List.countP_eq_length_filter]
  exact length_le_colors List.filter_sublist.subset (h.proper p)

/-- An interval has fewer colors below its own than there are intervals at its start. -/
theorem Greedy.color_lt (h : Greedy start stop color l) (hsorted : l.Pairwise fun a b => start a ≤ start b)
    (ha : a ∈ l) (hself : start a ≤ stop a) : color a < depth start stop l (start a) := by
  obtain ⟨before, after, rfl⟩ := List.append_of_mem ha
  have hbefore := (List.pairwise_append.mp hsorted).2.2
  have hcolors : ∀ k ∈ Finset.range (color a + 1),
      k ∈ (((before ++ a :: after).filter fun b => Covers start stop (start a) b).map color).toFinset := by
    intro k hk
    rw [List.mem_toFinset, List.mem_map]
    rcases Nat.lt_or_eq_of_le (Nat.lt_succ_iff.mp (Finset.mem_range.mp hk)) with hlt | rfl
    · obtain ⟨b, hb, hstop, hcolor⟩ := h.least before a after rfl k hlt
      have hcovers : Covers start stop (start a) b := ⟨hbefore b hb a List.mem_cons_self, hstop⟩
      exact ⟨b, List.mem_filter.mpr ⟨List.mem_append_left _ hb, decide_eq_true hcovers⟩, hcolor⟩
    · exact ⟨a, List.mem_filter.mpr ⟨ha, decide_eq_true ⟨le_refl _, hself⟩⟩, rfl⟩
  have hcard := Finset.card_le_card hcolors
  rw [Finset.card_range] at hcard
  rw [depth, List.countP_eq_length_filter, ← List.length_map color]
  exact hcard.trans (List.toFinset_card_le _)

/-- Intervals that come by their starts need as many colors as there are intervals at some point. -/
theorem Greedy.optimal (h : Greedy start stop color l) (hsorted : l.Pairwise fun a b => start a ≤ start b)
    (hself : ∀ a ∈ l, start a ≤ stop a) (hne : l ≠ []) :
    ∃ a ∈ l, depth start stop l (start a) = colors color l := by
  obtain ⟨b, hb⟩ := List.exists_mem_of_ne_nil l hne
  have hcolors : (l.map color).toFinset.Nonempty := ⟨color b, List.mem_toFinset.mpr (List.mem_map_of_mem hb)⟩
  obtain ⟨a, ha, hlast⟩ := List.mem_map.mp (List.mem_toFinset.mp (Finset.max'_mem _ hcolors))
  refine ⟨a, ha, Nat.le_antisymm (h.depth_le (start a))
    (Nat.le_trans ?_ (h.color_lt hsorted ha (hself a ha)))⟩
  have hsub : (l.map color).toFinset ⊆ Finset.range (color a + 1) := by
    intro c hc
    exact Finset.mem_range.mpr (Nat.lt_succ_of_le (hlast ▸ Finset.le_max' _ c hc))
  have hcard := Finset.card_le_card hsub
  rwa [Finset.card_range] at hcard

end IntervalColoring
