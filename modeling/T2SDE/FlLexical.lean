import T2SDE.FlNormal

namespace T2SDE.FlWrapper

open Text PathName

section Undone

variable {a b rest : List Str} {u w : Str} {k : Nat}

/-- Behind a component with one dot at its end comes `..`, up to `.` components. None ends in two dots. -/
def Undone (components : List Str) : Prop :=
  ∀ pre w post, components = pre ++ w :: post → w ≠ ['.'] → w ≠ ['.', '.'] → ['.'] <:+ w →
    ¬['.', '.'] <:+ w ∧ ∃ k rest, post = List.replicate k ['.'] ++ ['.', '.'] :: rest

/-- Behind the last place where nothing is kept, every dot at the end of a name is undone. -/
def Resettled (components : List Str) : Prop :=
  ∃ before after, components = before ++ after ∧ before.foldl enter [] = [] ∧ Undone after

theorem Undone.right (h : Undone (a ++ b)) : Undone b := by
  intro pre w post heq
  exact h (a ++ pre) w post (by rw [heq, List.append_assoc])

theorem Undone.append (ha : Undone a) (hb : Undone b) : Undone (a ++ b) := by
  intro pre w post heq hdot hup hend
  rcases List.append_eq_append_iff.mp heq with ⟨mid, rfl, hmid⟩ | ⟨mid, rfl, hmid⟩
  · exact hb mid w post hmid hdot hup hend
  · cases mid with
    | nil => exact hb [] w post hmid.symm hdot hup hend
    | cons x mid =>
      obtain ⟨rfl, rfl⟩ := List.cons.inj hmid
      obtain ⟨htwo, k, rest, rfl⟩ := ha pre w mid rfl hdot hup hend
      exact ⟨htwo, k, rest ++ b, by simp⟩

theorem undone_nil : Undone [] := by
  intro pre w post heq
  simp at heq

/-- A component that needs nothing behind it. -/
def Neutral (w : Str) : Prop := w = ['.'] ∨ w = ['.', '.'] ∨ ¬['.'] <:+ w

theorem undone_singleton (hw : Neutral w) : Undone [w] := by
  intro pre x post heq hdot hup hend
  have hx : x = w := by
    have hmem : x ∈ pre ++ x :: post := by simp
    rw [← heq] at hmem
    exact List.mem_singleton.mp hmem
  rw [hx] at hdot hup hend
  rcases hw with hw | hw | hw
  · exact absurd hw hdot
  · exact absurd hw hup
  · exact absurd hend hw

theorem undone_block (hu : ¬['.', '.'] <:+ u ++ ['.']) :
    Undone ((u ++ ['.']) :: (List.replicate k ['.'] ++ [['.', '.']])) := by
  intro pre w post heq hdot hup hend
  cases pre with
  | nil =>
    obtain ⟨rfl, rfl⟩ := List.cons.inj heq
    exact ⟨hu, k, [], rfl⟩
  | cons x pre =>
    have hmem : w ∈ pre ++ w :: post := by simp
    have htail : List.replicate k ['.'] ++ [['.', '.']] = pre ++ w :: post := (List.cons.inj heq).2
    rw [← htail] at hmem
    rcases List.mem_append.mp hmem with hmem | hmem
    · exact absurd (List.eq_of_mem_replicate hmem) hdot
    · exact absurd (List.mem_singleton.mp hmem) hup

end Undone

section Stand

variable {kept dir after cs : List Str} {u w : Str} {s : Scan} {k : Nat}

theorem enter_self (s : Scan) : s.enter ['.'] = s := by
  have henter := enter_dot s (u := []) (by decide)
  rw [List.append_nil] at henter
  exact henter

theorem enter_parent (s : Scan) : s.enter ['.', '.'] = s.pop := by
  have henter := enter_dotdot s []
  rw [List.append_nil] at henter
  exact henter

theorem not_suffix_two (h : ¬['.'] <:+ w) : ¬['.', '.'] <:+ w :=
  fun htwo => h ((List.suffix_cons '.' ['.']).trans htwo)

theorem enter_neutral (hw : Neutral w) : Scan.enter ⟨kept, []⟩ w = ⟨enter kept w, []⟩ := by
  unfold PathName.enter
  rcases hw with rfl | rfl | hw
  · rw [enter_self, if_pos rfl]
  · rw [enter_parent, if_neg (by decide), if_pos rfl, Scan.pop, if_pos rfl]
  · have hdot : w ≠ ['.'] := fun h => hw (by rw [h])
    have hup : w ≠ ['.', '.'] := fun h => hw (by rw [h]; decide)
    rw [enter_plain _ hw (not_suffix_two hw), if_neg hdot, if_neg hup]
    rfl

/-- A component that is not neutral is a name with a dot at its end. -/
theorem exists_dot (hw : ¬Neutral w) : w ≠ ['.'] ∧ w ≠ ['.', '.'] ∧ ['.'] <:+ w := by
  unfold Neutral at hw
  push Not at hw
  exact hw

theorem enter_name (hdot : w ≠ ['.']) (hup : w ≠ ['.', '.']) : enter dir w = dir ++ [w] := by
  rw [PathName.enter, if_neg hdot, if_neg hup]

theorem foldl_self (s : Scan) (k : Nat) : (List.replicate k ['.']).foldl Scan.enter s = s := by
  induction k with
  | zero => rfl
  | succ k ih => rw [List.replicate_succ, List.foldl_cons, enter_self, ih]

theorem foldl_enter_self (dir : List Str) (k : Nat) : (List.replicate k ['.']).foldl enter dir = dir := by
  induction k with
  | zero => rfl
  | succ k ih =>
    rw [List.replicate_succ, List.foldl_cons, PathName.enter, if_pos rfl]
    exact ih

theorem pop_opened (kept : List Str) (hu : u ≠ []) : Scan.pop ⟨kept, u⟩ = ⟨kept, []⟩ := by
  rw [Scan.pop, if_neg hu]

/-- Where the names with a dot at their end are undone, the scanner follows the fold. -/
theorem foldl_undone (h : Undone after) (hcs : ∀ c ∈ after, IsComponent c) :
    after.foldl Scan.enter ⟨kept, []⟩ = ⟨after.foldl enter kept, []⟩ := by
  induction hn : after.length using Nat.strong_induction_on generalizing after kept with
  | h n ih =>
    cases after with
    | nil => rfl
    | cons w ws =>
      simp only [List.length_cons] at hn
      by_cases hw : Neutral w
      · rw [List.foldl_cons, enter_neutral hw, List.foldl_cons]
        exact ih _ (by omega) (h.right (a := [w])) (fun c hc => hcs c (List.mem_cons_of_mem w hc)) rfl
      · obtain ⟨hdot, hup, hend⟩ := exists_dot hw
        obtain ⟨htwo, k, rest, rfl⟩ := h [] w ws rfl hdot hup hend
        obtain ⟨u, rfl⟩ := hend
        have hu : u ≠ [] := fun hnil => hdot (by rw [hnil]; rfl)
        simp only [List.length_append, List.length_replicate, List.length_cons] at hn
        have hrest : Undone rest := by
          refine Undone.right (a := (u ++ ['.']) :: (List.replicate k ['.'] ++ [['.', '.']])) ?_
          simpa using h
        rw [List.foldl_cons, enter_dot _ htwo, List.foldl_append, foldl_self, List.foldl_cons,
          List.nil_append,
          enter_parent, pop_opened kept hu, List.foldl_cons, enter_name hdot hup, List.foldl_append,
          foldl_enter_self, List.foldl_cons, PathName.enter, if_neg (by decide), if_pos rfl,
          List.dropLast_concat]
        exact ih _ (by omega) hrest (fun c hc => hcs c (by simp [hc])) rfl

/-- How the scanner stands to the fold: the same, with one name short of its dot, or with fewer names. -/
inductive Stand (cs : List Str) : Scan → List Str → Prop
  | same (kept : List Str) : Resettled cs → Stand cs ⟨kept, []⟩ kept
  | near (kept before after : List Str) (u : Str) (k : Nat) : u ≠ [] → ¬['.', '.'] <:+ u ++ ['.'] →
      cs = before ++ after ++ (u ++ ['.']) :: List.replicate k ['.'] → before.foldl enter [] = [] →
      Undone after →
      Stand cs ⟨kept, u⟩ (kept ++ [u ++ ['.']])
  | lost (s : Scan) (dir : List Str) : s.result.length < dir.length → Stand cs s dir

theorem length_kept_le (s : Scan) : s.kept.length ≤ s.result.length := by
  unfold Scan.result
  split_ifs
  · exact Nat.le_refl _
  · simp

theorem length_result_pop (s : Scan) : s.pop.kept.length = s.result.length - 1 := by
  unfold Scan.pop Scan.result
  split_ifs <;> simp

/-- A component adds at most one name to those with a slash behind them. -/
theorem length_result_enter (s : Scan) (hw : IsComponent w) :
    (s.enter w).result.length ≤ s.kept.length + 1 := by
  rcases component_cases hw with ⟨u, rfl⟩ | ⟨u, rfl, hu, htwo⟩ | ⟨hone, htwo⟩
  · rw [enter_dotdot, Scan.result, Scan.pop, if_pos rfl]
    split_ifs <;> simp
    omega
  · rw [enter_dot s htwo, Scan.result]
    split_ifs <;> simp
  · rw [enter_plain s hone htwo, Scan.result, if_pos rfl]
    simp

theorem Stand.enter (h : Stand cs s dir) (hw : IsComponent w)
    (hdir : (cs ++ [w]).foldl PathName.enter [] = PathName.enter dir w) :
    Stand (cs ++ [w]) (s.enter w) (PathName.enter dir w) := by
  cases h with
  | same _ hset =>
    obtain ⟨before, after, rfl, hzero, hundone⟩ := hset
    by_cases hn : Neutral w
    · rw [enter_neutral hn]
      refine .same _ ⟨before, after ++ [w], by rw [List.append_assoc], hzero, ?_⟩
      exact hundone.append (undone_singleton hn)
    · obtain ⟨hdot, hup, hend⟩ := exists_dot hn
      rw [enter_name hdot hup]
      obtain ⟨u, rfl⟩ := hend
      have hu : u ≠ [] := fun hnil => hdot (by rw [hnil]; rfl)
      by_cases htwo : ['.', '.'] <:+ u ++ ['.']
      · refine .lost _ _ ?_
        obtain ⟨v, hv⟩ := htwo
        have hv' : v ≠ [] := fun hnil => hup (by rw [← hv, hnil]; rfl)
        rw [← hv, enter_dotdot, List.nil_append, pop_opened dir hv', Scan.result, if_pos rfl,
          List.length_append]
        exact Nat.lt_succ_self _
      · rw [enter_dot _ htwo, List.nil_append]
        exact .near dir before after u 0 hu htwo (by simp) hzero hundone
  | near kept before after u k hu htwo hcs hzero hundone =>
    by_cases hdot : w = ['.']
    · rw [hdot, enter_self, PathName.enter, if_pos rfl]
      refine .near kept before after u (k + 1) hu htwo ?_ hzero hundone
      rw [hcs, List.replicate_succ', List.append_assoc, List.cons_append]
    by_cases hup : w = ['.', '.']
    · rw [hup, enter_parent, pop_opened kept hu, PathName.enter, if_neg (by decide), if_pos rfl,
        List.dropLast_concat]
      refine .same kept ⟨before, after ++ (u ++ ['.']) :: (List.replicate k ['.'] ++ [['.', '.']]), ?_,
        hzero, ?_⟩
      · rw [hcs]
        simp
      · exact hundone.append (undone_block htwo)
    · rw [enter_name hdot hup]
      refine .lost _ _ ?_
      have hlen := length_result_enter ⟨kept, u⟩ hw
      simp only [List.length_append, List.length_singleton]
      exact Nat.lt_succ_of_le hlen
  | lost _ _ hlt =>
    by_cases hdot : w = ['.']
    · rw [hdot, enter_self, PathName.enter, if_pos rfl]
      exact .lost s dir hlt
    by_cases hup : w = ['.', '.']
    · have hpop := length_result_pop s
      rw [hup] at hdir ⊢
      rw [enter_parent]
      rw [PathName.enter, if_neg (by decide), if_pos rfl] at hdir ⊢
      by_cases hnil : dir.dropLast = []
      · have hkept : s.pop.kept = [] := by
          have hone := congrArg List.length hnil
          rw [List.length_dropLast, List.length_nil] at hone
          exact List.length_eq_zero_iff.mp (by omega)
        have hempty : s.pop = ⟨[], []⟩ := by
          rw [← hkept]
          rfl
        rw [hempty, hnil]
        rw [hnil] at hdir
        exact .same [] ⟨cs ++ [['.', '.']], [], by rw [List.append_nil], hdir, undone_nil⟩
      · refine .lost _ _ ?_
        have hpos := List.length_pos_iff.mpr hnil
        rw [List.length_dropLast] at hpos ⊢
        have hres : s.pop.result.length = s.pop.kept.length := by
          rw [Scan.result]
          rfl
        omega
    · rw [enter_name hdot hup]
      refine .lost _ _ ?_
      have hlen := length_result_enter s hw
      have hkept := length_kept_le s
      simp only [List.length_append, List.length_singleton]
      omega

theorem stand_foldl (hcs : ∀ c ∈ cs, IsComponent c) :
    Stand cs (cs.foldl Scan.enter ⟨[], []⟩) (cs.foldl enter []) := by
  induction cs using List.reverseRecOn with
  | nil => exact .same [] ⟨[], [], rfl, rfl, undone_nil⟩
  | append_singleton cs w ih =>
    have hstand := ih fun c hc => hcs c (List.mem_append_left _ hc)
    have henter : (cs ++ [w]).foldl PathName.enter [] = PathName.enter (cs.foldl PathName.enter []) w := by
      rw [List.foldl_append]
      rfl
    rw [henter, List.foldl_append]
    exact hstand.enter (hcs w (by simp)) henter

/-- The scanner keeps the names that the fold keeps just if the names that lose a dot are all undone. -/
theorem foldl_result_iff (hcs : ∀ c ∈ cs, IsComponent c) :
    (cs.foldl Scan.enter ⟨[], []⟩).result = cs.foldl enter [] ↔ Resettled cs := by
  constructor
  · intro heq
    have hstand := stand_foldl hcs
    generalize cs.foldl Scan.enter ⟨[], []⟩ = s at heq hstand
    generalize cs.foldl enter [] = dir at heq hstand
    cases hstand with
    | same _ hset => exact hset
    | near kept _ _ u _ hu =>
      rw [Scan.result, if_neg hu] at heq
      simp at heq
    | lost _ _ hlt => exact absurd (congrArg List.length heq) (Nat.ne_of_lt hlt)
  · rintro ⟨before, after, rfl, hzero, hundone⟩
    have hempty : before.foldl Scan.enter ⟨[], []⟩ = ⟨[], []⟩ := by
      have hstand := stand_foldl fun c hc => hcs c (List.mem_append_left _ hc)
      generalize before.foldl Scan.enter ⟨[], []⟩ = s at hstand ⊢
      generalize before.foldl enter [] = dir at hstand hzero
      cases hstand with
      | same => rw [hzero]
      | near => simp at hzero
      | lost _ _ hlt => exact absurd hlt (by simp [hzero])
    rw [List.foldl_append, hempty, List.foldl_append, hzero,
      foldl_undone hundone fun c hc => hcs c (List.mem_append_right _ hc), Scan.result, if_pos rfl]

end Stand

section Main

variable {file : Str} {cs : List Str}

theorem scan_good (hcs : ∀ c ∈ cs, IsComponent c) : (cs.foldl Scan.enter ⟨[], []⟩).Good := by
  induction cs using List.reverseRecOn with
  | nil => exact Scan.Good.start
  | append_singleton cs w ih =>
    rw [List.foldl_append]
    exact (ih fun c hc => hcs c (List.mem_append_left _ hc)).enter (hcs w (by simp))

theorem foldl_components {dir : List Str} (hdir : ∀ c ∈ dir, IsComponent c) (hcs : ∀ c ∈ cs, IsComponent c) :
    ∀ c ∈ cs.foldl enter dir, IsComponent c := by
  induction cs generalizing dir with
  | nil => exact hdir
  | cons w cs ih =>
    exact ih (enter_components hdir (hcs w List.mem_cons_self)) fun c hc => hcs c (List.mem_cons_of_mem w hc)

/-- `sort_of_realpath` normalises an absolute path just if the names in it that lose a dot are all undone. -/
theorem sortOfRealpath_lexical_iff (file : Str) (habs : file.head? = some '/')
    (hlen : file.length < pathMax) :
    sortOfRealpath file = absolute (resolve [] file) ↔ Resettled (components file) := by
  have hcs : ∀ c ∈ components file, IsComponent c := fun c => mem_components
  have hscan := (scan_good hcs).plain
  rw [sortOfRealpath_eq habs hlen, scan, resolve,
    absolute_inj (fun c hc => (hscan c hc).1) (foldl_components (by simp) hcs)]
  exact foldl_result_iff hcs

theorem sortOfRealpath_lexical_iff_foo :
    sortOfRealpath "/usr/foo./../bin/".toList = absolute (resolve [] "/usr/foo./../bin/".toList) ↔
      Resettled (components "/usr/foo./../bin/".toList) :=
  sortOfRealpath_lexical_iff _ (by decide) (by decide)

/-- `foo.` in front of a slash: the name loses its dot and the slash behind it. -/
theorem sortOfRealpath_joins : ¬∀ file : Str, file.head? = some '/' → file.length < pathMax →
    sortOfRealpath file = absolute (resolve [] file) := by
  intro h
  have heq := h "/foo./bar".toList (by decide) (by decide)
  have hrun : sortOfRealpath "/foo./bar".toList = "/foobar".toList := by decide
  have hwant : absolute (resolve [] "/foo./bar".toList) = "/foo./bar".toList := by decide
  rw [hrun, hwant] at heq
  exact absurd heq (by decide)

end Main

end T2SDE.FlWrapper
