import Mathlib.Data.Finset.Lattice.Fold
import Mathlib.Order.Lattice.Nat
import T2SDE.DependencyGraph
import T2SDE.Lib.IntervalColoring

namespace T2SDE.Dependency

open Text IntervalColoring

/-- An arrow from the row of a package; it has no position until it is arranged. -/
structure DownArrow where
  start : Nat
  stop : Nat
  hPos : Option Nat

def DownArrow.setNeed (arrow : DownArrow) (byPriority : Nat) : DownArrow :=
  { arrow with stop := max arrow.stop byPriority }

/-- Whether two arrows can be drawn in the same column. -/
def DownArrow.compatible (arrow a : DownArrow) : Bool := a.start > arrow.stop || a.stop < arrow.start

/-- `down_arrows` -/
abbrev Arrows := Str → Option DownArrow

def setNeeds (row : Nat) (arrows : Arrows) (depend : List Str) : Arrows :=
  depend.foldl (fun arrows dep =>
    match arrows dep with
    | some arrow => Function.update arrows dep (some (arrow.setNeed row))
    | none => arrows) arrows

/-- The loop that computes the lengths of the arrows. -/
def arrowLengths (needed : List PkgNode) : Arrows :=
  needed.zipIdx.foldl (fun arrows current =>
    setNeeds current.2 (Function.update arrows current.1.name (some ⟨current.2, current.2, none⟩))
    current.1.depend)
    fun _ => none

/-- `pos_found` behind the loop over the packages in the rows above -/
def posFound (arrows : Arrows) (above : List PkgNode) (cur : DownArrow) (hPos : Nat) : Bool :=
  above.all fun node => (arrows node.name).all fun arrow =>
    !(arrow.hPos == some hPos && !arrow.compatible cur)

/-- The search for a position; the number bounds its turns. -/
def findPos (found : Nat → Bool) : Nat → Nat → Option Nat
  | 0, _ => none
  | turns + 1, hPos => if found hPos then some hPos else findPos found turns (hPos + 1)

/-- The loop that arranges the arrows. -/
def arrange (turns : Nat) : List PkgNode → List PkgNode → Arrows → Option Arrows
  | _, [], arrows => some arrows
  | above, current :: rest, arrows => do
    let cur ← arrows current.name
    let hPos ← findPos (posFound arrows above cur) turns 0
    arrange turns (above ++
    [current]) rest (Function.update arrows current.name (some { cur with hPos := some hPos }))

/-- The two loops of `PrintGraph` in front of the output. -/
def layout (turns : Nat) (needed : List PkgNode) : Option Arrows :=
  arrange turns [] needed (arrowLengths needed)

/-- The packages with a priority as `std::sort` leaves them; packages of one priority come in any order. -/
structure Needed (graph : PkgGraph) (priority : Str → Int) (needed : List PkgNode) : Prop where
  perm : needed.Perm (graph.nodes.filter fun node => 0 ≤ priority node.name)
  sorted : needed.Pairwise fun a b => priority a.name ≤ priority b.name

section Rows

variable (needed : List PkgNode)

/-- The package of a row depends on that of another one. -/
def dependsOn (row on : Nat) : Bool := needed[row]?.any fun node => needed[on]?.any fun dep =>
    node.depend.contains dep.name

/-- The last row of a dependent below a row, or else the row itself. -/
def lastRow (row : Nat) : Nat :=
  ((List.range needed.length).filter fun below => row < below && dependsOn needed below row).foldl max row

/-- How many intervals share a row. -/
def sharing (row : Nat) : Nat := depth id (lastRow needed) (List.range needed.length) row

end Rows

section Lengths

variable {needed front : List PkgNode} {arrows : Arrows} {depend : List Str} {d node : PkgNode} {n : Str}
    {row r : Nat}

theorem setNeeds_apply (row : Nat) (arrows : Arrows) (depend : List Str) (n : Str) :
    setNeeds row arrows depend n = if n ∈ depend then (arrows n).map (·.setNeed row) else arrows n := by
  induction depend generalizing arrows with
  | nil => rfl
  | cons dep depend ih =>
    have hstep : setNeeds row arrows (dep :: depend) n = setNeeds row (match arrows dep with
        | some arrow => Function.update arrows dep (some (arrow.setNeed row))
        | none => arrows) depend n := rfl
    have htwice : ∀ arrow : DownArrow, (arrow.setNeed row).setNeed row = arrow.setNeed row := by
      intro arrow
      simp [DownArrow.setNeed]
    rw [hstep, ih]
    by_cases hn : n = dep
    · subst hn
      rw [if_pos (List.mem_cons_self)]
      cases harrow : arrows n with
      | none => simp [harrow]
      | some arrow => simp [htwice]
    · have hsame : (match arrows dep with
          | some arrow => Function.update arrows dep (some (arrow.setNeed row))
          | none => arrows) n = arrows n := by
        cases arrows dep with
        | none => rfl
        | some arrow => exact Function.update_of_ne hn _ _
      rw [hsame]
      simp [hn]

theorem arrowLengths_append (front : List PkgNode) (d : PkgNode) :
    arrowLengths (front ++ [d]) =
      setNeeds front.length (Function.update (arrowLengths front) d.name (some ⟨front.length,
      front.length, none⟩)) d.depend := by
  simp [arrowLengths, List.zipIdx_append]

theorem dependsOn_append (hrow : row < front.length) (hr : r < front.length) :
    dependsOn (front ++ [d]) row r = dependsOn front row r := by
  rw [dependsOn, dependsOn, List.getElem?_append_left hrow, List.getElem?_append_left hr]

theorem dependsOn_last (hnode : front[r]? = some node) :
    dependsOn (front ++ [d]) front.length r = d.depend.contains node.name := by
  have hr : r < front.length := (List.getElem?_eq_some_iff.mp hnode).1
  rw [dependsOn, List.getElem?_concat_length, List.getElem?_append_left hr, hnode]
  rfl

theorem lastRow_append (hnode : front[r]? = some node) :
    lastRow (front ++ [d]) r = if node.name ∈ d.depend then max (lastRow front r) front.length
    else lastRow front r := by
  have hr : r < front.length := (List.getElem?_eq_some_iff.mp hnode).1
  have hfilter : ((List.range front.length).filter fun below =>
    r < below && dependsOn (front ++ [d]) below r) =
      (List.range front.length).filter fun below => r < below && dependsOn front below r := by
    refine List.filter_congr fun below hbelow => ?_
    rw [dependsOn_append (List.mem_range.mp hbelow) hr]
  rw [lastRow, List.length_append, List.length_singleton, List.range_succ, List.filter_append, hfilter,
    List.foldl_append]
  by_cases hdepends : node.name ∈ d.depend
  · rw [if_pos hdepends, List.filter_cons_of_pos (by simp [dependsOn_last hnode, hr, hdepends])]
    rfl
  · rw [if_neg hdepends, List.filter_cons_of_neg (by simp [dependsOn_last hnode, hdepends])]
    rfl

theorem lastRow_last (front : List PkgNode) (d : PkgNode) :
    lastRow (front ++ [d]) front.length = front.length := by
  have hnone : ((List.range (front ++ [d]).length).filter fun below =>
      front.length < below && dependsOn (front ++ [d]) below front.length) = [] := by
    refine List.filter_eq_nil_iff.mpr fun below hbelow => ?_
    have hle := List.mem_range.mp hbelow
    rw [List.length_append, List.length_singleton] at hle
    simp [show ¬front.length < below by omega]
  rw [lastRow, hnone]
  rfl

theorem le_lastRow (needed : List PkgNode) (row : Nat) : row ≤ lastRow needed row := by
  have hfold : ∀ (rows : List Nat) (a : Nat), a ≤ rows.foldl max a := by
    intro rows
    induction rows with
    | nil => exact fun a => Nat.le_refl a
    | cons b rows ih => exact fun a => (Nat.le_max_left a b).trans (ih _)
  exact hfold _ row

/-- The first pass leaves each arrow from the row of its package to the last row of a dependent. -/
theorem arrowLengths_spec (hnodup : (needed.map PkgNode.name).Nodup) :
    (∀ r node, needed[r]? = some node → arrowLengths needed node.name = some ⟨r, lastRow needed r, none⟩) ∧
      ∀ n, n ∉ needed.map PkgNode.name → arrowLengths needed n = none := by
  induction needed using List.reverseRecOn with
  | nil => exact ⟨fun r node h => by simp at h, fun _ _ => rfl⟩
  | append_singleton front d ih =>
    rw [List.map_append] at hnodup
    obtain ⟨hfront, -, hdisjoint⟩ := List.nodup_append.mp hnodup
    obtain ⟨ihrows, ihnone⟩ := ih hfront
    constructor
    · intro r node hnode
      rw [arrowLengths_append, setNeeds_apply]
      rcases Nat.lt_trichotomy r front.length with hr | rfl | hr
      · rw [List.getElem?_append_left hr] at hnode
        have hne : node.name ≠ d.name :=
          hdisjoint _ (List.mem_map_of_mem (List.mem_of_getElem? hnode)) _ List.mem_cons_self
        rw [Function.update_of_ne hne, ihrows r node hnode, lastRow_append hnode]
        by_cases hdepends : node.name ∈ d.depend
        · rw [if_pos hdepends, if_pos hdepends]
          rfl
        · rw [if_neg hdepends, if_neg hdepends]
      · rw [List.getElem?_concat_length] at hnode
        obtain rfl := Option.some.inj hnode
        rw [Function.update_self, lastRow_last]
        split
        next => simp [DownArrow.setNeed]
        next => rfl
      · rw [List.getElem?_eq_none (by simp; omega)] at hnode
        cases hnode
    · intro n hn
      rw [List.map_append, List.mem_append, not_or] at hn
      have hne : n ≠ d.name := fun heq => hn.2 (by simp [heq])
      rw [arrowLengths_append, setNeeds_apply, Function.update_of_ne hne, ihnone n hn.1]
      simp

end Lengths

section Arrange

variable {needed above rest : List PkgNode} {arrows : Arrows} {node : PkgNode} {column : Nat → Nat}
    {i r hPos turns : Nat}
  {found : Nat → Bool}

/-- The search finds the first position, if there is one within its turns. -/
theorem findPos_spec {start k : Nat} (hk : k < turns) (h : found (start + k) = true) :
    ∃ c, findPos found turns start = some c ∧ found c = true ∧ ∀ b, start ≤ b → b < c → found b = false := by
  induction turns generalizing start k with
  | zero => exact absurd hk (Nat.not_lt_zero k)
  | succ turns ih =>
    rw [findPos]
    cases hstart : found start with
    | true => exact ⟨start, rfl, hstart, fun b hle hlt => absurd hle (Nat.not_le.mpr hlt)⟩
    | false =>
      have hne : k ≠ 0 := by
        rintro rfl
        rw [Nat.add_zero, hstart] at h
        cases h
      have hnext : found (start + 1 + (k - 1)) = true := by
        rwa [show start + 1 + (k - 1) = start + k by omega]
      obtain ⟨c, hc, hfound, hleast⟩ := ih (by omega) hnext
      refine ⟨c, hc, hfound, fun b hle hlt => ?_⟩
      rcases Nat.eq_or_lt_of_le hle with rfl | hless
      · exact hstart
      · exact hleast b hless hlt

/-- The arrows while the first rows have their columns. -/
structure Placed (needed : List PkgNode) (i : Nat) (arrows : Arrows) (column : Nat → Nat) : Prop where
  arrow : ∀ r node, needed[r]? = some node →
    arrows node.name = some ⟨r, lastRow needed r, if r < i then some (column r) else none⟩
  free : ∀ a < i, ∀ b < a, a ≤ lastRow needed b → column b ≠ column a
  least : ∀ a < i, ∀ k < column a, ∃ b < a, a ≤ lastRow needed b ∧ column b = k

theorem posFound_iff (h : Placed (above ++ node :: rest) above.length arrows column) :
    posFound arrows above ⟨above.length, lastRow (above ++ node :: rest) above.length, none⟩ hPos = true ↔
      ∀ b < above.length, above.length ≤ lastRow (above ++ node :: rest) b → column b ≠ hPos := by
  have hrow : ∀ b other, above[b]? = some other →
      ((arrows other.name).all fun arrow => !(arrow.hPos == some hPos &&
        !arrow.compatible ⟨above.length, lastRow (above ++ node :: rest) above.length, none⟩)) =
      decide (above.length ≤ lastRow (above ++ node :: rest) b → column b ≠ hPos) := by
    intro b other hother
    have hb : b < above.length := (List.getElem?_eq_some_iff.mp hother).1
    have hself := le_lastRow (above ++ node :: rest) above.length
    rw [h.arrow b other (by rwa [List.getElem?_append_left hb]), if_pos hb, Bool.eq_iff_iff]
    have hnot : ¬lastRow (above ++ node :: rest) above.length < b := by omega
    simp only [Option.all_some, DownArrow.compatible, gt_iff_lt, hnot, decide_false, Bool.or_false,
      Bool.not_eq_true',
      Bool.and_eq_false_iff, beq_eq_false_iff_ne, ne_eq, Option.some.injEq, Bool.not_eq_false',
      decide_eq_true_eq]
    exact ⟨fun h hle => h.elim id fun hlt => absurd hle (Nat.not_le.mpr hlt), fun h =>
      (Nat.lt_or_ge (lastRow (above ++ node :: rest) b) above.length).elim .inr fun hle => .inl (h hle)⟩
  rw [posFound, List.all_eq_true]
  constructor
  · intro hall b hb
    have hother : above[b]? = some above[b] := List.getElem?_eq_getElem hb
    exact of_decide_eq_true ((hrow b _ hother).symm.trans (hall _ (List.getElem_mem hb)))
  · intro hfree other hother
    obtain ⟨b, hb, rfl⟩ := List.getElem_of_mem hother
    exact (hrow b _ (List.getElem?_eq_getElem hb)).trans (decide_eq_true (hfree b hb))

/-- Of one more position than there are rows above, one is free. -/
theorem exists_free (column : Nat → Nat) (i : Nat) : ∃ k < i + 1, ∀ b < i, column b ≠ k := by
  by_contra hnone
  push Not at hnone
  have hsub : Finset.range (i + 1) ⊆ (Finset.range i).image column := by
    intro k hk
    obtain ⟨b, hb, rfl⟩ := hnone k (Finset.mem_range.mp hk)
    exact Finset.mem_image_of_mem column (Finset.mem_range.mpr hb)
  have hcard := (Finset.card_le_card hsub).trans Finset.card_image_le
  rw [Finset.card_range, Finset.card_range] at hcard
  omega

/-- The row that comes next gets the smallest column that is free. -/
theorem Placed.next (hnodup : ((above ++ node :: rest).map PkgNode.name).Nodup)
    (h : Placed (above ++ node :: rest) above.length arrows column)
    (hfound : ∀ b < above.length, above.length ≤ lastRow (above ++ node :: rest) b → column b ≠ hPos)
    (hleast : ∀ k < hPos, ∃ b < above.length, above.length ≤ lastRow (above ++ node :: rest) b ∧
    column b = k) :
    Placed (above ++ node :: rest) (above.length + 1)
      (Function.update arrows node.name (some ⟨above.length, lastRow (above ++ node :: rest) above.length,
      some hPos⟩))
      (Function.update column above.length hPos) := by
  have hnode : (above ++ node :: rest)[above.length]? = some node := by simp
  have hbelow : ∀ b < above.length, Function.update column above.length hPos b = column b :=
    fun b hb => Function.update_of_ne (Nat.ne_of_lt hb) _ _
  refine ⟨fun r other hother => ?_, fun a ha b hb hle => ?_, fun a ha k hk => ?_⟩
  · by_cases hr : r = above.length
    · subst hr
      obtain rfl := Option.some.inj (hnode.symm.trans hother)
      rw [Function.update_self, if_pos (Nat.lt_succ_self _), Function.update_self]
    · have hne : other.name ≠ node.name := by
        intro heq
        obtain ⟨hlt, _⟩ := List.getElem?_eq_some_iff.mp hother
        have hsame : ((above ++ node :: rest).map PkgNode.name)[r]? =
            ((above ++ node :: rest).map PkgNode.name)[above.length]? := by
          rw [List.getElem?_map, List.getElem?_map, hother, hnode, Option.map_some, Option.map_some, heq]
        exact hr ((List.getElem?_inj (by simpa using hlt) hnodup).mp hsame)
      rw [Function.update_of_ne hne, h.arrow r other hother, Function.update_of_ne hr]
      have hiff : r < above.length ↔ r < above.length + 1 := by omega
      simp only [hiff]
  · rcases Nat.lt_or_eq_of_le (Nat.lt_succ_iff.mp ha) with hlt | rfl
    · rw [hbelow a hlt, hbelow b (hb.trans hlt)]
      exact h.free a hlt b hb hle
    · rw [Function.update_self, hbelow b hb]
      exact hfound b hb hle
  · rcases Nat.lt_or_eq_of_le (Nat.lt_succ_iff.mp ha) with hlt | rfl
    · rw [hbelow a hlt] at hk
      obtain ⟨b, hb, hle, hcolumn⟩ := h.least a hlt k hk
      exact ⟨b, hb, hle, (hbelow b (hb.trans hlt)).trans hcolumn⟩
    · rw [Function.update_self] at hk
      obtain ⟨b, hb, hle, hcolumn⟩ := hleast k hk
      exact ⟨b, hb, hle, (hbelow b hb).trans hcolumn⟩

/-- Every arrow gets a column. -/
theorem arrange_spec (hnodup : ((above ++ rest).map PkgNode.name).Nodup)
    (hturns : (above ++ rest).length < turns)
    (h : Placed (above ++ rest) above.length arrows column) :
    ∃ arrows' column', arrange turns above rest arrows = some arrows' ∧
      Placed (above ++ rest) (above ++ rest).length arrows' column' := by
  induction rest generalizing above arrows column with
  | nil =>
    rw [List.append_nil] at h ⊢
    exact ⟨arrows, column, rfl, h⟩
  | cons node rest ih =>
    have hsplit : above ++ node :: rest = (above ++ [node]) ++ rest := by simp
    have hcur : arrows node.name = some ⟨above.length, lastRow (above ++ node :: rest) above.length,
      none⟩ := by
      rw [h.arrow above.length node (by simp), if_neg (Nat.lt_irrefl _)]
    obtain ⟨k, hk, hfree⟩ := exists_free column above.length
    have hlength : above.length + 1 ≤ turns := by
      rw [List.length_append, List.length_cons] at hturns
      omega
    obtain ⟨c, hc, hfound, hleast⟩ :=
      @findPos_spec turns (posFound arrows above ⟨above.length, _, none⟩) 0 k (by omega)
      ((Nat.zero_add k).symm ▸ (posFound_iff h).mpr fun b hb _ => hfree b hb)
    have hplaced := h.next hnodup ((posFound_iff h).mp hfound) fun k hk => by
      have hnot := Bool.eq_false_iff.mp (hleast k (Nat.zero_le k) hk)
      rw [ne_eq, posFound_iff h] at hnot
      push Not at hnot
      exact hnot
    rw [arrange, hcur, hsplit]
    rw [hsplit] at hplaced hnodup hturns
    have hstep : above.length + 1 = (above ++ [node]).length := by simp
    rw [hstep] at hplaced
    obtain ⟨arrows', column', harrange, hlast⟩ := ih hnodup hturns hplaced
    refine ⟨arrows', column', ?_, hlast⟩
    rw [hsplit] at hc
    simp only [Option.bind_eq_bind, Option.bind_some, hc]
    exact harrange

/-- The columns of the rows are those of a greedy coloring. -/
theorem Placed.greedy (h : Placed needed needed.length arrows column) :
    Greedy id (lastRow needed) column (List.range needed.length) := by
  have hrows : ∀ before a after, List.range needed.length = before ++ a :: after →
      a < needed.length ∧ ∀ b, b ∈ before ↔ b < a := by
    intro before a after hsplit
    have hlt : before.length < (List.range needed.length).length := by simp [hsplit]
    have ha : a = before.length := by
      have hget : (List.range needed.length)[before.length]? = some a := by simp [hsplit]
      rw [List.getElem?_range (by simpa using hlt)] at hget
      exact (Option.some.inj hget).symm
    have hbefore : before = List.range a := by
      have htake := congrArg (List.take before.length) hsplit
      rw [List.take_left, List.take_range, ← ha] at htake
      rw [← htake, Nat.min_eq_left]
      rw [List.length_range] at hlt
      omega
    rw [List.length_range] at hlt
    exact ⟨by omega, fun b => by rw [hbefore, List.mem_range]⟩
  constructor
  · intro before a after hsplit b hb hle
    obtain ⟨ha, hmem⟩ := hrows before a after hsplit
    exact h.free a ha b ((hmem b).mp hb) hle
  · intro before a after hsplit k hk
    obtain ⟨ha, hmem⟩ := hrows before a after hsplit
    obtain ⟨b, hb, hle, hcolumn⟩ := h.least a ha k hk
    exact ⟨b, (hmem b).mpr hb, hle, hcolumn⟩

end Arrange

/-- Every needed package gets a column, two whose intervals share a row get different ones, and
there are no more columns than intervals that share some row. -/
theorem layout_spec {graph : PkgGraph} {priority : Str → Int} {needed : List PkgNode}
    (h : Needed graph priority needed)
    (more : Nat) :
    ∃ arrows column, layout (needed.length + 1 + more) needed = some arrows ∧
      (∀ row node, needed[row]? = some node → arrows node.name =
      some ⟨row, lastRow needed row, some (column row)⟩) ∧
      (∀ a < needed.length, ∀ b < needed.length, a ≠ b →
        (∃ row, (a ≤ row ∧ row ≤ lastRow needed a) ∧ b ≤ row ∧ row ≤ lastRow needed b) →
        column a ≠ column b) ∧
      ((List.range needed.length).map column).toFinset.card =
      (Finset.range needed.length).sup (sharing needed) := by
  have hnodup : (needed.map PkgNode.name).Nodup :=
    (h.perm.map PkgNode.name).nodup_iff.mpr (graph.named.sublist (List.filter_sublist.map PkgNode.name))
  have hstart : Placed needed 0 (arrowLengths needed) fun _ => 0 := by
    refine ⟨fun r node hnode => ?_, fun a ha => absurd ha (Nat.not_lt_zero a), fun a ha =>
      absurd ha (Nat.not_lt_zero a)⟩
    rw [(arrowLengths_spec hnodup).1 r node hnode, if_neg (Nat.not_lt_zero r)]
  obtain ⟨arrows, column, harrange, hplaced⟩ :=
    @arrange_spec [] needed _ _ (needed.length + 1 + more) hnodup (by rw [List.nil_append]; omega) hstart
  have hgreedy := hplaced.greedy
  refine ⟨arrows, column, harrange, fun row node hnode => ?_, fun a ha b hb hne hshare => ?_, ?_⟩
  · have hrow : row < needed.length := (List.getElem?_eq_some_iff.mp hnode).1
    exact (hplaced.arrow row node hnode).trans (by rw [List.nil_append, if_pos hrow])
  · obtain ⟨row, ⟨hstarta, hstopa⟩, hstartb, hstopb⟩ := hshare
    rcases Nat.lt_or_gt_of_ne hne with hlt | hlt
    · exact hplaced.free b hb a hlt (hstartb.trans hstopa)
    · exact (hplaced.free a ha b hlt (hstarta.trans hstopb)).symm
  · refine le_antisymm ?_ (Finset.sup_le fun row _ => hgreedy.depth_le row)
    by_cases hne : List.range needed.length = []
    · rw [hne]
      exact Nat.zero_le _
    · have hsorted : (List.range needed.length).Pairwise fun a b => id a ≤ id b :=
        List.pairwise_lt_range.imp fun hlt => Nat.le_of_lt hlt
      obtain ⟨row, hrow, hdepth⟩ := hgreedy.optimal hsorted (fun a _ => le_lastRow needed a) hne
      have hsup : sharing needed row ≤ (Finset.range needed.length).sup (sharing needed) :=
        Finset.le_sup (Finset.mem_range.mpr (List.mem_range.mp hrow))
      exact (Nat.le_of_eq hdepth.symm).trans hsup

/-- Two libraries that a program needs, where one of them needs the other. -/
def sampleNodes : List PkgNode :=
  [⟨"zlib".toList, []⟩, ⟨"libpng".toList, ["zlib".toList]⟩, ⟨"gimp".toList, ["zlib".toList, "libpng".toList]⟩]

theorem sampleNodes_named : (sampleNodes.map PkgNode.name).Nodup := by decide

def sampleGraph : PkgGraph := ⟨sampleNodes, sampleNodes_named⟩

theorem sampleNodes_needed :
    Needed sampleGraph (fun name => if name = "zlib".toList then 1 else 2) sampleNodes :=
  ⟨List.Perm.refl _, by decide⟩

theorem layout_spec_sample : ∃ arrows column, layout (3 + 1 + 0) sampleNodes = some arrows ∧
    (∀ row node, sampleNodes[row]? = some node →
      arrows node.name = some ⟨row, lastRow sampleNodes row, some (column row)⟩) ∧ column 0 ≠ column 1 ∧
    ((List.range 3).map column).toFinset.card = 3 := by
  obtain ⟨arrows, column, hlayout, harrows, hproper, hcolumns⟩ := layout_spec sampleNodes_needed 0
  exact ⟨arrows, column, hlayout, harrows, hproper 0 (by decide) 1 (by decide) (by decide) ⟨1, by decide⟩,
    hcolumns.trans (by decide)⟩

end T2SDE.Dependency
