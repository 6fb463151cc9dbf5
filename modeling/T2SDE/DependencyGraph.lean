import T2SDE.Lib.DepthFirst
import T2SDE.Lib.Text

namespace T2SDE.Dependency

open Text DepthFirst Relation

/-- A package with the dependencies that its cache file lists. -/
structure PkgNode where
  name : Str
  depend : List Str

/-- The map of the packages, in any order. -/
structure PkgGraph where
  nodes : List PkgNode
  named : (nodes.map PkgNode.name).Nodup

def PkgGraph.find (graph : PkgGraph) (pkgname : Str) : Option PkgNode :=
  graph.nodes.find? fun node => node.name = pkgname

/-- The priorities, what has been printed, and the packages whose dependencies have been gone
through, the latest first. -/
structure Evaluation where
  priority : Str → Int
  warnings : List Str
  evaluated : List Str

/-- -1 = not evaluated yet; -2 = in evaluation -/
def Evaluation.start : Evaluation := ⟨fun _ => -1, [], []⟩

def Evaluation.assign (s : Evaluation) (pkgname : Str) (priority : Int) : Evaluation :=
  { s with priority := Function.update s.priority pkgname priority }

def Evaluation.warn (s : Evaluation) (text pkgname : Str) : Evaluation :=
  { s with warnings := s.warnings ++ ["Warning: ".toList ++ text ++ " '".toList ++ pkgname ++ "'".toList] }

def Evaluation.enter (s : Evaluation) (pkgname : Str) : Evaluation :=
  { s.assign pkgname (-2) with evaluated := pkgname :: s.evaluated }

/-- The loop over the dependencies, with the greatest priority so far. -/
def greatest (evaluate : Evaluation → Str → Option (Int × Evaluation)) (r : Int × Evaluation) (dep : Str) :
    Option (Int × Evaluation) :=
  (evaluate r.2 dep).map fun p => (max r.1 p.1, p.2)

/-- `PkgGraph::GetPriority`; the number bounds how deep it goes. -/
def getPriority (graph : PkgGraph) : Nat → Evaluation → Str → Option (Int × Evaluation)
  | 0 => fun _ _ => none
  | depth + 1 => fun s pkgname =>
    match graph.find pkgname with
    | none => some (0, s.warn "could not find package".toList pkgname)
    | some node =>
      if s.priority pkgname = -2 then
        some (0, (s.warn "circular dependency detected involving package".toList pkgname).assign pkgname 0)
      else if s.priority pkgname = -1 then
        (node.depend.foldlM (greatest (getPriority graph depth)) (0, s.enter pkgname)).map fun r =>
          (r.1 + 1, r.2.assign pkgname (r.1 + 1))
      else some (s.priority pkgname, s)

section Meaning

variable (graph : PkgGraph)

/-- The dependencies of a package that there are. -/
def PkgGraph.next (pkgname : Str) : List Str :=
  ((graph.find pkgname).elim [] PkgNode.depend).filter fun dep => (graph.find dep).isSome

/-- A package that there is and that the root depends on, over any number of steps. -/
def PkgGraph.Reachable (root pkgname : Str) : Prop :=
  (graph.find root).isSome = true ∧ Reaches graph.next root pkgname

/-- No package that the root depends on depends on itself. -/
def PkgGraph.Acyclic (root : Str) : Prop :=
  ∀ pkgname, graph.Reachable root pkgname → ¬TransGen (fun p q => q ∈ graph.next p) pkgname pkgname

/-- The priority with which a dependency counts. -/
def PkgGraph.counted (s : Evaluation) (dep : Str) : Int :=
  if (graph.find dep).isSome then s.priority dep else 0

def PkgGraph.greatestOf (s : Evaluation) (depend : List Str) : Int :=
  depend.foldl (fun p dep => max p (graph.counted s dep)) 0

end Meaning

section Steps

variable {graph : PkgGraph} {stack : List Str} {s s' : Evaluation} {p text : Str} {node : PkgNode}
    {v : Int} {depth : Nat}

@[simp] theorem warn_priority : (s.warn text p).priority = s.priority := rfl

@[simp] theorem warn_evaluated : (s.warn text p).evaluated = s.evaluated := rfl

@[simp] theorem assign_same : (s.assign p v).priority p = v := Function.update_self ..

@[simp] theorem assign_evaluated : (s.assign p v).evaluated = s.evaluated := rfl

theorem assign_other {n : Str} (hn : n ≠ p) : (s.assign p v).priority n = s.priority n :=
  Function.update_of_ne hn ..

/-- While the packages of a stack are in evaluation. The mark of one is 0 once a cycle has been
found through it. -/
structure Inv (stack : List Str) (s : Evaluation) : Prop where
  stacked : ∀ n ∈ stack, s.priority n = -2 ∨ s.priority n = 0
  settled : ∀ n, n ∉ stack → s.priority n = -1 ∨ 1 ≤ s.priority n
  seen : ∀ n, n ∈ s.evaluated ↔ s.priority n ≠ -1

/-- A priority stays as it is once it is known. -/
def Kept (s s' : Evaluation) : Prop := ∀ n, 1 ≤ s.priority n → s'.priority n = s.priority n

theorem Kept.trans {t : Evaluation} (h : Kept s t) (h' : Kept t s') : Kept s s' := by
  intro n hn
  have ht := h n hn
  rw [h' n (ht ▸ hn), ht]

theorem Inv.start : Inv [] .start :=
  ⟨fun _ h => absurd h List.not_mem_nil, fun _ _ => .inl rfl, fun _ =>
    iff_of_false List.not_mem_nil (not_not.mpr rfl)⟩

theorem Inv.warn (h : Inv stack s) (text p : Str) : Inv stack (s.warn text p) :=
  ⟨h.stacked, h.settled, h.seen⟩

theorem Inv.fresh (h : Inv stack s) (hp : s.priority p = -1) : p ∉ stack := by
  intro hmem
  rcases h.stacked p hmem with heq | heq <;> omega

/-- The mark of a package in evaluation becomes 0. -/
theorem Inv.unmark (h : Inv stack s) (hp : s.priority p = -2) :
    Inv stack (s.assign p 0) ∧ Kept s (s.assign p 0) := by
  have hmem : p ∈ stack := by
    by_contra hnot
    rcases h.settled p hnot with heq | heq <;> omega
  refine ⟨⟨fun n hn => ?_, fun n hn => ?_, fun n => ?_⟩, fun n hn => assign_other fun heq => ?_⟩
  · by_cases heq : n = p
    · exact .inr (heq ▸ assign_same)
    · rw [assign_other heq]
      exact h.stacked n hn
  · rw [assign_other fun heq : n = p => hn (heq ▸ hmem)]
    exact h.settled n hn
  · by_cases heq : n = p
    · rw [heq, assign_same, assign_evaluated, h.seen, hp]
      decide
    · rw [assign_other heq]
      exact h.seen n
  · rw [heq, hp] at hn
    omega

theorem Inv.enter (h : Inv stack s) (hp : s.priority p = -1) :
    Inv (p :: stack) (s.enter p) ∧ Kept s (s.enter p) := by
  have hother : ∀ {n}, n ≠ p → (s.enter p).priority n = s.priority n := fun heq => assign_other heq
  have hsame : (s.enter p).priority p = -2 := assign_same
  refine ⟨⟨fun n hn => ?_, fun n hn => ?_, fun n => ?_⟩, fun n hn => hother fun heq => ?_⟩
  · by_cases heq : n = p
    · exact .inl (heq ▸ hsame)
    · rw [hother heq]
      exact h.stacked n ((List.mem_cons.mp hn).resolve_left heq)
  · rw [hother fun heq : n = p => hn (heq ▸ List.mem_cons_self)]
    exact h.settled n fun hmem => hn (List.mem_cons_of_mem p hmem)
  · by_cases heq : n = p
    · rw [heq, hsame]
      exact iff_of_true List.mem_cons_self (by decide)
    · rw [hother heq, ← h.seen n]
      exact List.mem_cons.trans (or_iff_right heq)
  · rw [heq, hp] at hn
    omega

theorem Inv.leave (h : Inv (p :: stack) s) (hp : p ∉ stack) (hv : 0 ≤ v) :
    Inv stack (s.assign p (v + 1)) ∧ Kept s (s.assign p (v + 1)) := by
  have hmark := h.stacked p List.mem_cons_self
  refine ⟨⟨fun n hn => ?_, fun n hn => ?_, fun n => ?_⟩, fun n hn => assign_other fun heq => ?_⟩
  · rw [assign_other fun heq : n = p => hp (heq ▸ hn)]
    exact h.stacked n (List.mem_cons_of_mem p hn)
  · by_cases heq : n = p
    · rw [heq, assign_same]
      omega
    · rw [assign_other heq]
      exact h.settled n fun hmem => (List.mem_cons.mp hmem).elim heq hn
  · by_cases heq : n = p
    · rw [heq, assign_same, assign_evaluated, h.seen]
      omega
    · rw [assign_other heq]
      exact h.seen n
  · rw [heq] at hn
    omega

theorem getPriority_succ : getPriority graph (depth + 1) s p =
    match graph.find p with
    | none => some (0, s.warn "could not find package".toList p)
    | some node =>
      if s.priority p = -2 then
        some (0, (s.warn "circular dependency detected involving package".toList p).assign p 0)
      else if s.priority p = -1 then
        (node.depend.foldlM (greatest (getPriority graph depth)) (0, s.enter p)).map fun r =>
          (r.1 + 1, r.2.assign p (r.1 + 1))
      else some (s.priority p, s) := rfl

theorem getPriority_missing (h : graph.find p = none) :
    getPriority graph (depth + 1) s p = some (0, s.warn "could not find package".toList p) := by
  rw [getPriority_succ, h]

theorem getPriority_circular (h : graph.find p = some node) (hp : s.priority p = -2) :
    getPriority graph (depth + 1) s p =
      some (0, (s.warn "circular dependency detected involving package".toList p).assign p 0) := by
  rw [getPriority_succ, h]
  exact if_pos hp

theorem getPriority_new (h : graph.find p = some node) (hp : s.priority p = -1) :
    getPriority graph (depth + 1) s p =
      (node.depend.foldlM (greatest (getPriority graph depth)) (0, s.enter p)).map fun r =>
        (r.1 + 1, r.2.assign p (r.1 + 1)) := by
  rw [getPriority_succ, h]
  exact (if_neg (by omega)).trans (if_pos hp)

theorem getPriority_known (h : graph.find p = some node) (hp : s.priority p ≠ -2) (hp' : s.priority p ≠ -1) :
    getPriority graph (depth + 1) s p = some (s.priority p, s) := by
  rw [getPriority_succ, h]
  exact (if_neg hp).trans (if_neg hp')

theorem greatest_some {evaluate : Evaluation → Str → Option (Int × Evaluation)} {r r' : Int × Evaluation} :
    greatest evaluate r p = some r' ↔ ∃ v t, evaluate r.2 p = some (v, t) ∧ r' = (max r.1 v, t) := by
  rw [greatest, Option.map_eq_some_iff]
  constructor
  · rintro ⟨⟨v, t⟩, hcall, rfl⟩
    exact ⟨v, t, hcall, rfl⟩
  · rintro ⟨v, t, hcall, rfl⟩
    exact ⟨(v, t), hcall, rfl⟩

/-- What the loop preserves if each call does. -/
theorem greatest_step {evaluate : Evaluation → Str → Option (Int × Evaluation)} {ds : List Str}
    {r r' : Int × Evaluation}
    (hcall : ∀ {s d v s'}, Inv stack s → evaluate s d = some (v, s') → Inv stack s' ∧ Kept s s' ∧ 0 ≤ v)
    (hs : Inv stack r.2) (h : ds.foldlM (greatest evaluate) r = some r') :
    Inv stack r'.2 ∧ Kept r.2 r'.2 ∧ r.1 ≤ r'.1 := by
  refine @foldlM_invariant _ _ _ _ _ _ (fun t => Inv stack t.2 ∧ Kept r.2 t.2 ∧ r.1 ≤ t.1) ?_
    ⟨hs, fun _ _ => rfl, Int.le_refl r.1⟩ h
  rintro t dep t' - ⟨hinv, hkept, hle⟩ hstep
  obtain ⟨w, u, hget, rfl⟩ := greatest_some.mp hstep
  obtain ⟨hinv', hkept', -⟩ := hcall hinv hget
  exact ⟨hinv', hkept.trans hkept', hle.trans (Int.le_max_left _ _)⟩

/-- What one call preserves. -/
theorem getPriority_step (hs : Inv stack s) (h : getPriority graph depth s p = some (v, s')) :
    Inv stack s' ∧ Kept s s' ∧ 0 ≤ v := by
  induction depth generalizing stack s p v s' with
  | zero => cases h
  | succ depth ih =>
    cases hfind : graph.find p with
    | none =>
      rw [getPriority_missing hfind] at h
      cases h
      exact ⟨hs.warn _ p, fun _ _ => rfl, Int.le_refl 0⟩
    | some node =>
      by_cases hmarked : s.priority p = -2
      · rw [getPriority_circular hfind hmarked] at h
        cases h
        exact ⟨((hs.warn _ p).unmark hmarked).1, ((hs.warn _ p).unmark hmarked).2, Int.le_refl 0⟩
      by_cases hnew : s.priority p = -1
      · rw [getPriority_new hfind hnew] at h
        obtain ⟨r, hfold, heq⟩ := Option.map_eq_some_iff.mp h
        obtain ⟨rfl, rfl⟩ := Prod.mk.inj heq
        obtain ⟨hentered, hkept⟩ := hs.enter hnew
        obtain ⟨hinv, hloop, hpos⟩ := greatest_step ih hentered hfold
        obtain ⟨hleft, hkept'⟩ := hinv.leave (hs.fresh hnew) hpos
        exact ⟨hleft, (hkept.trans hloop).trans hkept', Int.le_add_one hpos⟩
      · rw [getPriority_known hfind hmarked hnew] at h
        cases h
        refine ⟨hs, fun _ _ => rfl, ?_⟩
        by_cases hmem : p ∈ stack
        · rcases hs.stacked p hmem with heq | heq <;> omega
        · rcases hs.settled p hmem with heq | heq <;> omega

/-- The loop over the dependencies goes through those that there are as the search does. -/
theorem greatest_simulates {ds : List Str} {seen : List Str} {r : Int × Evaluation} (hs : Inv stack r.2)
    (hcall : ∀ {s d seen}, Inv stack s → (graph.find d).isSome = true →
    visit id graph.next depth s.evaluated d = some seen →
      ∃ v s', getPriority graph (depth + 1) s d = some (v, s') ∧ s'.evaluated = seen)
    (h : (ds.filter fun d => (graph.find d).isSome).foldlM (visit id graph.next depth) r.2.evaluated =
    some seen) :
    ∃ r', ds.foldlM (greatest (getPriority graph (depth + 1))) r = some r' ∧ r'.2.evaluated = seen := by
  induction ds generalizing r with
  | nil => exact ⟨r, rfl, Option.some.inj h⟩
  | cons d ds ih =>
    cases hfind : graph.find d with
    | none =>
      rw [List.filter_cons_of_neg (by simp [hfind])] at h
      obtain ⟨r', hrest, hseen⟩ := @ih (max r.1 0, r.2.warn "could not find package".toList d) (hs.warn _ d) h
      refine ⟨r', foldlM_cons_some.mpr ⟨_, greatest_some.mpr ⟨0, _, getPriority_missing hfind, rfl⟩,
        hrest⟩, hseen⟩
    | some node =>
      rw [List.filter_cons_of_pos (by simp [hfind])] at h
      obtain ⟨t, hfirst, hrest⟩ := foldlM_cons_some.mp h
      obtain ⟨v, s', hget, rfl⟩ := hcall hs (by simp [hfind]) hfirst
      obtain ⟨r', hloop, hseen⟩ := @ih (max r.1 v, s') (getPriority_step hs hget).1 hrest
      exact ⟨r', foldlM_cons_some.mpr ⟨_, greatest_some.mpr ⟨v, s', hget, rfl⟩, hloop⟩, hseen⟩

/-- The recursion goes through the packages as a search that enters each once. -/
theorem getPriority_simulates {seen : List Str} (hs : Inv stack s) (hp : (graph.find p).isSome = true)
    (h : visit id graph.next depth s.evaluated p = some seen) :
    ∃ v s', getPriority graph (depth + 1) s p = some (v, s') ∧ s'.evaluated = seen := by
  induction depth generalizing stack s p seen with
  | zero => cases h
  | succ depth ih =>
    obtain ⟨node, hfind⟩ := Option.isSome_iff_exists.mp hp
    rw [visit, DepthFirst.enter, List.map_id, id_eq] at h
    by_cases hnew : s.priority p = -1
    · have hnot : p ∉ s.evaluated := fun hmem => (hs.seen p).mp hmem hnew
      have hnext : graph.next p = node.depend.filter fun d => (graph.find d).isSome := by
        rw [PkgGraph.next, hfind]
        rfl
      rw [if_neg hnot, hnext] at h
      obtain ⟨r, hloop, hseen⟩ :=
        @greatest_simulates _ _ _ _ _ (0, s.enter p) (hs.enter hnew).1 (fun hs hd hd' => ih hs hd hd') h
      exact ⟨_, _, (getPriority_new hfind hnew).trans (congrArg _ hloop), hseen⟩
    · rw [if_pos ((hs.seen p).mpr hnew)] at h
      obtain rfl := Option.some.inj h
      by_cases hmarked : s.priority p = -2
      · exact ⟨_, _, getPriority_circular hfind hmarked, rfl⟩
      · exact ⟨_, _, getPriority_known hfind hmarked hnew, rfl⟩

/-- What is known about the packages whose priority is known, where there are no cycles. -/
def Correct (graph : PkgGraph) (s : Evaluation) : Prop :=
  ∀ n node, graph.find n = some node → 1 ≤ s.priority n →
    s.priority n = 1 + graph.greatestOf s node.depend ∧ ∀ dep ∈ node.depend,
      (graph.find dep).isSome = true → 1 ≤ s.priority dep

theorem counted_of_kept (hkept : Kept s s') (hp : (graph.find p).isSome = true → 1 ≤ s.priority p) :
    graph.counted s' p = graph.counted s p := by
  rw [PkgGraph.counted, PkgGraph.counted]
  split
  next hfind => exact hkept p (hp hfind)
  next => rfl

theorem foldl_max_congr {ds : List Str} {f g : Str → Int} (h : ∀ d ∈ ds, f d = g d) (a : Int) :
    ds.foldl (fun p d => max p (f d)) a = ds.foldl (fun p d => max p (g d)) a := by
  induction ds generalizing a with
  | nil => rfl
  | cons d ds ih =>
    rw [List.foldl_cons, List.foldl_cons, h d List.mem_cons_self]
    exact ih (fun e he => h e (List.mem_cons_of_mem d he)) _

theorem greatestOf_of_kept {ds : List Str} (hkept : Kept s s')
    (hds : ∀ d ∈ ds, (graph.find d).isSome = true → 1 ≤ s.priority d) :
    graph.greatestOf s' ds = graph.greatestOf s ds :=
  foldl_max_congr (fun d hd => counted_of_kept hkept (hds d hd)) 0

/-- A priority that becomes known is added to the others. -/
theorem Correct.leave (hc : Correct graph s) (hkept :
    Kept s (s.assign p (graph.greatestOf s node.depend + 1)))
    (hfind : graph.find p = some node)
    (hdeps : ∀ dep ∈ node.depend, (graph.find dep).isSome = true → 1 ≤ s.priority dep) :
    Correct graph (s.assign p (graph.greatestOf s node.depend + 1)) := by
  intro n node' hnode hpos
  by_cases heq : n = p
  · subst heq
    obtain rfl := Option.some.inj (hfind.symm.trans hnode)
    refine ⟨?_, fun dep hdep hsome => ?_⟩
    · rw [assign_same, greatestOf_of_kept hkept hdeps]
      exact Int.add_comm _ 1
    · exact (hkept dep (hdeps dep hdep hsome)).symm ▸ hdeps dep hdep hsome
  · rw [assign_other heq] at hpos ⊢
    obtain ⟨hvalue, hlower⟩ := hc n node' hnode hpos
    refine ⟨?_, fun dep hdep hsome => ?_⟩
    · rw [hvalue, greatestOf_of_kept hkept hlower]
    · exact (hkept dep (hlower dep hdep hsome)).symm ▸ hlower dep hdep hsome

theorem greatest_values {ds : List Str} {r r' : Int × Evaluation}
    (hcall : ∀ d ∈ ds, ∀ {s v s'}, Inv stack s → Correct graph s →
    getPriority graph depth s d = some (v, s') →
      Correct graph s' ∧ v = graph.counted s' d ∧ ((graph.find d).isSome = true → 1 ≤ s'.priority d))
    (hs : Inv stack r.2) (hc : Correct graph r.2)
    (h : ds.foldlM (greatest (getPriority graph depth)) r = some r') :
    Correct graph r'.2 ∧ r'.1 = ds.foldl (fun p dep => max p (graph.counted r'.2 dep)) r.1 ∧
      ∀ d ∈ ds, (graph.find d).isSome = true → 1 ≤ r'.2.priority d := by
  induction ds generalizing r with
  | nil =>
    obtain rfl := Option.some.inj h
    exact ⟨hc, rfl, fun _ hd => absurd hd List.not_mem_nil⟩
  | cons d ds ih =>
    obtain ⟨t, hfirst, hrest⟩ := foldlM_cons_some.mp h
    obtain ⟨v, s, hget, rfl⟩ := greatest_some.mp hfirst
    have hs' := (getPriority_step hs hget).1
    obtain ⟨hc', hv, hknown⟩ := hcall d List.mem_cons_self hs hc hget
    have hkept : Kept s r'.2 := (greatest_step getPriority_step hs' hrest).2.1
    obtain ⟨hlast, hvalue, hall⟩ := ih (fun e he => hcall e (List.mem_cons_of_mem d he)) hs' hc' hrest
    refine ⟨hlast, ?_, fun e he hsome => ?_⟩
    · rw [hvalue, List.foldl_cons, counted_of_kept hkept hknown, hv]
    · rcases List.mem_cons.mp he with rfl | he
      · exact (hkept e (hknown hsome)).symm ▸ hknown hsome
      · exact hall e he hsome

theorem mem_next (hfind : graph.find p = some node) {d : Str} :
    d ∈ graph.next p ↔ d ∈ node.depend ∧ (graph.find d).isSome = true := by
  rw [PkgGraph.next, hfind]
  exact List.mem_filter

/-- Where what a package reaches is not in evaluation and has no cycles, its priority is one more
than that of its dependencies. -/
theorem getPriority_values (hs : Inv stack s) (hc : Correct graph s)
    (hcalm : ∀ n, Reaches graph.next p n → n ∉ stack)
    (hacyclic : ∀ n, Reaches graph.next p n → ¬TransGen (fun a b => b ∈ graph.next a) n n)
    (h : getPriority graph depth s p = some (v, s')) :
    Correct graph s' ∧ v = graph.counted s' p ∧ ((graph.find p).isSome = true → 1 ≤ s'.priority p) := by
  induction depth generalizing stack s p v s' with
  | zero => cases h
  | succ depth ih =>
    cases hfind : graph.find p with
    | none =>
      rw [getPriority_missing hfind] at h
      cases h
      exact ⟨hc, by rw [PkgGraph.counted, hfind]; rfl, fun hsome => absurd hsome (by decide)⟩
    | some node =>
      have hp : p ∉ stack := hcalm p .refl
      have hcounted : ∀ t : Evaluation, graph.counted t p = t.priority p := fun t => if_pos (by simp [hfind])
      rcases hs.settled p hp with hnew | hpos
      · rw [getPriority_new hfind hnew] at h
        obtain ⟨r, hfold, heq⟩ := Option.map_eq_some_iff.mp h
        obtain ⟨rfl, rfl⟩ := Prod.mk.inj heq
        have hentered := (hs.enter hnew).1
        have hc' : Correct graph (s.enter p) := by
          intro n node' hnode hn
          have hne : n ≠ p := by
            rintro rfl
            have hmark : (s.enter n).priority n = -2 := assign_same
            omega
          have hkept := (hs.enter hnew).2
          have hn' : 1 ≤ s.priority n := (assign_other hne : (s.enter p).priority n = s.priority n) ▸ hn
          obtain ⟨hvalue, hlower⟩ := hc n node' hnode hn'
          refine ⟨?_, fun dep hdep hsome => (hkept dep (hlower dep hdep hsome)).symm ▸ hlower dep hdep hsome⟩
          rw [hkept n hn', hvalue, greatestOf_of_kept hkept hlower]
        have hcall : ∀ d ∈ node.depend, ∀ {t w t'}, Inv (p :: stack) t → Correct graph t →
            getPriority graph depth t d = some (w, t') →
            Correct graph t' ∧ w = graph.counted t' d ∧
              ((graph.find d).isSome = true → 1 ≤ t'.priority d) := by
          intro d hd t w t' ht htc hget
          by_cases hsome : (graph.find d).isSome = true
          · have hedge : d ∈ graph.next p := (mem_next hfind).mpr ⟨hd, hsome⟩
            refine ih ht htc (fun n hn hmem => ?_) (fun n hn => hacyclic n (.head hedge hn)) hget
            rcases List.mem_cons.mp hmem with rfl | hmem
            · exact hacyclic n .refl (.head' hedge hn)
            · exact hcalm n (.head hedge hn) hmem
          · have hnone : graph.find d = none := by simpa using hsome
            cases depth with
            | zero => cases hget
            | succ depth =>
              rw [getPriority_missing hnone] at hget
              cases hget
              exact ⟨htc, by rw [PkgGraph.counted, hnone]; rfl, fun h => absurd h hsome⟩
        obtain ⟨hlast, hvalue, hlower⟩ := greatest_values hcall hentered hc' hfold
        have hloop := greatest_step getPriority_step hentered hfold
        have hkept := (hloop.1.leave hp hloop.2.2).2
        have hgreatest : r.1 = graph.greatestOf r.2 node.depend := hvalue
        rw [hgreatest] at hkept ⊢
        refine ⟨hlast.leave hkept hfind hlower, ?_, fun _ => ?_⟩
        · rw [hcounted, assign_same]
        · rw [assign_same, ← hgreatest]
          exact Int.le_add_of_nonneg_left hloop.2.2
      · rw [getPriority_known hfind (by omega) (by omega)] at h
        cases h
        exact ⟨hc, (hcounted s).symm, fun _ => hpos⟩

theorem le_foldl_max {ds : List Str} {f : Str → Int} (a : Int) :
    a ≤ ds.foldl (fun p d => max p (f d)) a ∧ ∀ d ∈ ds, f d ≤ ds.foldl (fun p d => max p (f d)) a := by
  induction ds generalizing a with
  | nil => exact ⟨Int.le_refl a, fun _ h => absurd h List.not_mem_nil⟩
  | cons d ds ih =>
    obtain ⟨hfirst, hrest⟩ := ih (max a (f d))
    refine ⟨(Int.le_max_left _ _).trans hfirst, fun e he => ?_⟩
    rcases List.mem_cons.mp he with rfl | he
    · exact (Int.le_max_right _ _).trans hfirst
    · exact hrest e he

theorem counted_le {ds : List Str} {d : Str} (hd : d ∈ ds) : graph.counted s d ≤ graph.greatestOf s ds :=
  (le_foldl_max 0).2 d hd

end Steps

section Run

variable {graph : PkgGraph} {root p : Str}

theorem find_some {node : PkgNode} (h : graph.find p = some node) : node ∈ graph.nodes ∧ node.name = p := by
  have hname := List.find?_some (p := fun node : PkgNode => decide (node.name = p)) h
  exact ⟨List.mem_of_find?_eq_some h, of_decide_eq_true hname⟩

theorem find_node {node : PkgNode} (h : node ∈ graph.nodes) : graph.find node.name = some node := by
  have hsome : (graph.find node.name).isSome = true := List.find?_isSome.mpr ⟨node, h, decide_eq_true rfl⟩
  obtain ⟨other, hother⟩ := Option.isSome_iff_exists.mp hsome
  obtain ⟨hmem, hname⟩ := find_some hother
  rw [hother, List.inj_on_of_nodup_map graph.named hmem h hname]

theorem mem_names (h : (graph.find p).isSome = true) : p ∈ graph.nodes.map PkgNode.name := by
  obtain ⟨node, hfind⟩ := Option.isSome_iff_exists.mp h
  obtain ⟨hmem, hname⟩ := find_some hfind
  exact hname ▸ List.mem_map_of_mem hmem

theorem next_names (p : Str) : graph.next p ⊆ graph.nodes.map PkgNode.name :=
  fun _ hd => mem_names (List.mem_filter.mp hd).2

theorem unseen_start (nodes : List Str) : unseen id nodes [] ≤ nodes.length := by
  rw [unseen, List.map_id, List.map_nil, List.toFinset_nil, Finset.sdiff_empty]
  exact List.toFinset_card_le nodes

/-- The search from a root that there is. -/
theorem search_reachable (hroot : (graph.find root).isSome = true) (more : Nat) :
    ∃ seen, visit id graph.next (graph.nodes.length + 1 + more) [] root = some seen ∧ seen.Nodup ∧
      ∀ n, n ∈ seen ↔ graph.Reachable root n := by
  have hfuel : unseen id (graph.nodes.map PkgNode.name) [] < graph.nodes.length + 1 + more := by
    have hle := unseen_start (graph.nodes.map PkgNode.name)
    rw [List.length_map] at hle
    omega
  obtain ⟨seen, hseen⟩ := visit_some (fun q _ => next_names q) (mem_names hroot) hfuel
  have hnodup := (visit_grows hseen).1.once List.nodup_nil
  have hexplored : Explored graph.next [] seen [root] :=
    @visit_explored _ _ id graph.next [] seen root Set.univ _ _ (Set.injOn_id _) (fun _ _ _ _ => trivial)
      (fun _ _ => trivial)
      trivial hseen
  refine ⟨seen, hseen, by rwa [List.map_id] at hnodup, fun n => ⟨fun hn => ⟨hroot, ?_⟩, fun h => ?_⟩⟩
  · rcases hexplored.reached n hn with hold | ⟨r, hr, hreach⟩
    · exact absurd hold List.not_mem_nil
    · rwa [List.mem_singleton.mp hr] at hreach
  · obtain ⟨-, hreach⟩ := h
    induction hreach with
    | refl => exact hexplored.root List.mem_cons_self
    | tail _ hstep ih => exact hexplored.closed _ ih List.not_mem_nil hstep

end Run

/-- The evaluation ends for every graph, with a known priority just for the packages that are
reached, each of which is gone through once; where these have no cycles each priority is one more
than the greatest of the dependencies. -/
theorem getPriority_spec (graph : PkgGraph) (root : Str) (more : Nat) :
    ∃ v s, getPriority graph (graph.nodes.length + 2 + more) .start root = some (v, s) ∧
      s.evaluated.Nodup ∧ (∀ n, n ∈ s.evaluated ↔ graph.Reachable root n) ∧ (∀ n, s.priority n ≠ -2) ∧
      (∀ n, graph.Reachable root n → 1 ≤ s.priority n) ∧ (∀ n, ¬graph.Reachable root n → s.priority n = -1) ∧
      (graph.Acyclic root → ∀ node ∈ graph.nodes, graph.Reachable root node.name →
        s.priority node.name = 1 + graph.greatestOf s node.depend ∧
          ∀ dep ∈ node.depend, graph.counted s dep < s.priority node.name) := by
  cases hfind : graph.find root with
  | none =>
    have hnone : ∀ n, ¬graph.Reachable root n := fun n h => by simpa [hfind] using h.1
    have hdepth : graph.nodes.length + 2 + more = (graph.nodes.length + 1 + more) + 1 := by omega
    rw [hdepth]
    refine ⟨_, _, getPriority_missing hfind, List.nodup_nil, fun n =>
      iff_of_false List.not_mem_nil (hnone n), ?_,
      fun n h => absurd h (hnone n), fun _ _ => rfl, fun _ node _ h => absurd h (hnone node.name)⟩
    exact fun n (h : (-1 : Int) = -2) => absurd h (by decide)
  | some rootNode =>
    have hsome : (graph.find root).isSome = true := by simp [hfind]
    obtain ⟨seen, hsearch, hnodup, hreach⟩ := search_reachable hsome more
    have hdepth : graph.nodes.length + 2 + more = (graph.nodes.length + 1 + more) + 1 := by omega
    obtain ⟨v, s, hget, rfl⟩ := getPriority_simulates Inv.start hsome hsearch
    obtain ⟨hinv, -, -⟩ := getPriority_step Inv.start hget
    have hcases := fun n => hinv.settled n List.not_mem_nil
    have hpos : ∀ n, graph.Reachable root n → 1 ≤ s.priority n :=
      fun n hn => (hcases n).resolve_left ((hinv.seen n).mp ((hreach n).mpr hn))
    refine ⟨v, s, hdepth ▸ hget, hnodup, hreach, fun n h => ?_, hpos, fun n hn => ?_,
      fun hacyclic node hnode hn => ?_⟩
    · rcases hcases n with heq | hle <;> omega
    · exact (hcases n).resolve_right fun hle => hn ((hreach n).mp ((hinv.seen n).mpr (by omega)))
    · have hstart : Correct graph .start := fun n _ _ (h : (1 : Int) ≤ -1) => absurd h (by decide)
      have hcorrect := (getPriority_values Inv.start hstart (fun _ _ => List.not_mem_nil)
        (fun n hn => hacyclic n ⟨hsome, hn⟩) hget).1
      have hvalue := (hcorrect node.name node (find_node hnode) (hpos _ hn)).1
      refine ⟨hvalue, fun dep hdep => ?_⟩
      rw [hvalue]
      have hle : graph.counted s dep ≤ graph.greatestOf s node.depend := counted_le hdep
      omega

end T2SDE.Dependency
