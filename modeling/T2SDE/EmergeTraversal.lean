import T2SDE.EmergePkg

namespace T2SDE.Emerge

open Text DepthFirst

section Steps

variable {options : Options} {packages : Packages} {fuel : Nat} {st st' : Traversal} {p : Str} {d : Nat}

/-- Whether a package is added to the list where it is examined at a depth. -/
def adds (options : Options) (packages : Packages) (depth : Nat) (package : Str) : Bool :=
  !avoided options packages depth package && (packages.confdirs package).length == 1 &&
    (!packages.installed package ||
      packages.oVer package != packages.nVer package && packages.nVer package != "0000".toList ||
      !options.ignoreChksum && packages.oCk package != packages.nCk package ||
      if packages.broken package then options.rebuild else options.force && depth == 0)

theorem adds_deep (hd : d ≠ 0) : adds options packages d p = adds options packages 1 p := by
  have hbeq : (d == 0) = false := by simpa using hd
  have hbne : (d != 0) = true := by simpa using hd
  simp [adds, avoided, hbeq, hbne]

/-- What is left to do for a package that is not marked. -/
def addTo (options : Options) (packages : Packages) (addIfUpdated : Traversal → Str → Option Traversal)
    (st : Traversal)
    (p : Str) : Option Traversal :=
  if adds options packages st.depth p then
    let st := { st with deplist := varAppend blank p st.deplist }
    if options.deps = .indirect then dep4pkg packages addIfUpdated st p else some st
  else some st

/-- The checks one after the other. -/
theorem adds_eq {α : Type} (added left : α) (havoided : avoided options packages d p = false) :
    (if (packages.confdirs p).length ≠ 1 then left
      else if !packages.installed p then added
      else if packages.oVer p ≠ packages.nVer p ∧ packages.nVer p ≠ "0000".toList then added
      else if !options.ignoreChksum ∧ packages.oCk p ≠ packages.nCk p then added
      else if packages.broken p then (if options.rebuild then added else left)
      else if options.force ∧ d = 0 then added
      else left) = if adds options packages d p then added else left := by
  have hver : (packages.oVer p ≠ packages.nVer p ∧ packages.nVer p ≠ "0000".toList) ↔
      (packages.oVer p != packages.nVer p && packages.nVer p != "0000".toList) = true := by
    rw [Bool.and_eq_true, bne_iff_ne, bne_iff_ne]
  have hck : (!options.ignoreChksum ∧ packages.oCk p ≠ packages.nCk p) ↔
      (!options.ignoreChksum && packages.oCk p != packages.nCk p) = true := by
    rw [Bool.and_eq_true, bne_iff_ne]
  simp only [hver, hck, adds, havoided]
  generalize (packages.oVer p != packages.nVer p && packages.nVer p != "0000".toList) = newVersion
  generalize (!options.ignoreChksum && packages.oCk p != packages.nCk p) = newChecksum
  by_cases hdir : (packages.confdirs p).length = 1
  · cases hinstalled : packages.installed p <;> cases newVersion <;> cases newChecksum <;>
      cases hbroken : packages.broken p <;>
      simp [hdir]
  · simp [hdir]

theorem addIfUpdated_succ : addIfUpdated options packages (fuel + 1) st p =
    if beenHere p ∈ st.marks then some st
    else addTo options packages (addIfUpdated options packages fuel)
      { st with marks := beenHere p :: st.marks, examined := p :: st.examined } p := by
  rw [addIfUpdated]
  by_cases hmark : beenHere p ∈ st.marks
  · rw [if_pos hmark, if_pos hmark]
  · rw [if_neg hmark, if_neg hmark]
    simp only [addIfReq, addTo]
    by_cases havoided : avoided options packages st.depth p = true
    · have hadds : adds options packages st.depth p = false := by rw [adds, havoided]; rfl
      simp only [havoided, hadds, if_true, ite_self]
      rfl
    · rw [Bool.not_eq_true] at havoided
      have hchecks := fun added left : Option Traversal => adds_eq added left havoided
      simp only [havoided, Bool.false_eq_true, if_false]
      exact hchecks _ _

end Steps

section Path

variable {stack : List Str} {p : Str}

/-- The package at the end of the path is taken off again. -/
theorem deptree_restored (hstack : ∀ n ∈ stack, IsName n) (hp : IsName p) (hnew : p ∉ stack) :
    varRemove [arrow.char] p (varAppend arrow p (joined arrow.char stack)) = joined arrow.char stack := by
  have hitems : ∀ n ∈ stack ++ [p], IsItem arrow.char n := by
    intro n hn
    rcases List.mem_append.mp hn with hn | hn
    · exact (hstack n hn).item (by decide)
    · rw [List.mem_singleton.mp hn]
      exact hp.item (by decide)
  have hremovable : Removable p (stack ++ [p]) := by
    cases stack with
    | nil => exact .inr (.inl rfl)
    | cons n l =>
      refine .inr (.inr ⟨⟨n, by simp, fun heq => hnew (heq ▸ List.mem_cons_self)⟩, fun htwice => ?_⟩)
      rw [List.cons_append, List.tail_cons, List.dropLast_concat] at htwice
      exact hnew (List.mem_cons_of_mem n (mem_of_twice htwice))
  have hfilter : (stack ++ [p]).filter (· ≠ p) = stack := by
    have hothers : ∀ n ∈ stack, decide (n ≠ p) = true := by
      intro n hn
      rw [decide_eq_true_eq]
      rintro rfl
      exact hnew hn
    rw [List.filter_append, List.filter_eq_self.mpr hothers]
    simp
  have hpath := varAppend_joined (x := p) arrow fun n hn => hitems n (List.mem_append_left [p] hn)
  rw [hpath, varRemove_joined hitems (hp.item (by decide)) (readsItself_plain (by decide) hp.plain _),
    (removeItem_iff p _).mpr hremovable, hfilter]

end Path

section Simulation

variable {options : Options} {packages : Packages} {fuel d : Nat} {st st' st'' : Traversal}
  {stack added added' added'' ps seen seen' : List Str} {p : Str} {run : Traversal → Str → Option Traversal}
  {search : List Str → Str → Option (List Str)} {level : Nat → Prop}

/-- The variables between two calls: the path in `deptree`, the packages in `deplist`, and a mark
for each that is examined. -/
structure Sane (st : Traversal) (stack added : List Str) : Prop where
  deptree : st.deptree = joined arrow.char stack
  path : stack ⊆ st.examined
  marks : st.marks = st.examined.map beenHere
  names : ∀ n ∈ st.examined, IsName n
  deplist : st.deplist = joined blank.char added
  list : added ⊆ st.examined

/-- What a call leaves: `depth` and `deptree` are as before, and so they are for all calls of
`dep4pkg` in it; the dependencies of a package that is added with `-deps=indirect` are marked. -/
structure Followed (options : Options) (packages : Packages) (st st' : Traversal)
    (added added' : List Str) : Prop where
  old : st.examined ⊆ st'.examined
  depth : st'.depth = st.depth
  deptree : st'.deptree = st.deptree
  calls : ∀ call ∈ st'.calls, call ∈ st.calls ∨ call.1 = call.2
  behind : options.deps = .indirect → ∀ x ∈ added', x ∈ added ∨
    ∀ y ∈ packages.dependencies x, beenHere y ∈ st'.examined.map beenHere

theorem Followed.refl (st : Traversal) (added : List Str) : Followed options packages st st added added :=
  ⟨fun _ h => h, rfl, rfl, fun _ h => .inl h, fun _ _ h => .inl h⟩

theorem Followed.trans (h : Followed options packages st st' added added')
    (h' : Followed options packages st' st'' added' added'') :
    Followed options packages st st'' added added'' := by
  constructor
  · exact fun _ hx => h'.old (h.old hx)
  · rw [h'.depth, h.depth]
  · rw [h'.deptree, h.deptree]
  · exact fun call hcall => (h'.calls call hcall).elim (h.calls call) .inr
  · intro hindirect x hx
    rcases h'.behind hindirect x hx with hx | hx
    · refine (h.behind hindirect x hx).imp_right fun hmarked y hy => ?_
      exact List.map_subset beenHere h'.old (hmarked y hy)
    · exact .inr hx

/-- A call examines the packages that a search on the names sees. -/
def Simulates (options : Options) (packages : Packages) (level : Nat → Prop)
    (run : Traversal → Str → Option Traversal)
    (search : List Str → Str → Option (List Str)) : Prop :=
  ∀ ⦃st : Traversal⦄ ⦃stack added : List Str⦄ ⦃p : Str⦄ ⦃seen' : List Str⦄,
    Sane st stack added → IsName p → level st.depth →
    search st.examined p = some seen' →
    ∃ st' added', run st p = some st' ∧ st'.examined = seen' ∧ Sane st' stack added' ∧
      Followed options packages st st' added added'

theorem Simulates.foldlM (hrun : Simulates options packages level run search) (hsane : Sane st stack added)
    (hps : ∀ p ∈ ps, IsName p) (hlevel : level st.depth) (h : ps.foldlM search st.examined = some seen') :
    ∃ st' added', ps.foldlM run st = some st' ∧ st'.examined = seen' ∧ Sane st' stack added' ∧
      Followed options packages st st' added added' := by
  induction ps generalizing st added with
  | nil =>
    cases h
    exact ⟨st, added, rfl, rfl, hsane, .refl st added⟩
  | cons p ps ih =>
    obtain ⟨t, hfirst, hrest⟩ := foldlM_cons_some.mp h
    obtain ⟨u, listed, hu, rfl, hsaneu, hfollowed⟩ := hrun hsane (hps p List.mem_cons_self) hlevel hfirst
    have hlevelu : level u.depth := by rwa [hfollowed.depth]
    obtain ⟨st', added', hst', hexamined, hsane', hfollowed'⟩ :=
      ih hsaneu (fun q hq => hps q (List.mem_cons_of_mem p hq)) hlevelu hrest
    exact ⟨st', added', foldlM_cons_some.mpr ⟨u, hu, hst'⟩, hexamined, hsane', hfollowed.trans hfollowed'⟩

theorem dep4pkg_simulates (hrun : Simulates options packages (· ≠ 0) run search) (hsane : Sane st stack added)
    (hnames : ∀ q ∈ packages.dependencies p, IsName q) (hp : p ∈ st.examined) (hnew : p ∉ stack)
    (h : (packages.dependencies p).foldlM search st.examined = some seen') :
    ∃ st' added', dep4pkg packages run st p = some st' ∧ st'.examined = seen' ∧ Sane st' stack added' ∧
      Followed options packages st st' added added' := by
  have hpath : ∀ n ∈ stack, IsName n := fun n hn => hsane.names n (hsane.path hn)
  have hitems : ∀ n ∈ stack, IsItem arrow.char n := fun n hn => (hpath n hn).item (by decide)
  have hentered : Sane { st with depth := st.depth + 1, deptree := varAppend arrow p st.deptree }
    (stack ++ [p]) added := by
    refine ⟨?_, ?_, hsane.marks, hsane.names, hsane.deplist, hsane.list⟩
    · rw [hsane.deptree]
      exact varAppend_joined arrow hitems
    · rw [List.append_subset, List.cons_subset]
      exact ⟨hsane.path, hp, List.nil_subset _⟩
  obtain ⟨left, added', hleft, hexamined, hsane', hfollowed⟩ :=
    hrun.foldlM hentered hnames (Nat.succ_ne_zero _) h
  have hdeptree : varRemove [arrow.char] p left.deptree = st.deptree := by
    rw [hfollowed.deptree, hsane.deptree]
    exact deptree_restored hpath (hsane.names p hp) hnew
  have hdepth : left.depth - 1 = st.depth := by
    rw [hfollowed.depth]
    rfl
  refine ⟨leave st left p, added', by rw [dep4pkg, hleft]; rfl, hexamined, ?_, ?_⟩
  · refine ⟨hdeptree.trans hsane.deptree, ?_, hsane'.marks, hsane'.names, hsane'.deplist, hsane'.list⟩
    exact fun n hn => hsane'.path (List.mem_append_left [p] hn)
  · refine ⟨hfollowed.old, hdepth, hdeptree, fun call hcall => ?_, hfollowed.behind⟩
    rcases List.mem_cons.mp hcall with rfl | hcall
    · exact .inr (by rw [hdepth, hdeptree])
    · exact hfollowed.calls call hcall

/-- Where the traversal goes from a package that is examined at a depth. -/
def follow (options : Options) (packages : Packages) (depth : Nat) (package : Str) : List Str :=
  if options.deps = .indirect ∧ adds options packages depth package then packages.dependencies package else []

theorem follow_deep (hd : d ≠ 0) : follow options packages d p = follow options packages 1 p := by
  rw [follow, follow, adds_deep hd]

/-- A package that has just been marked. -/
theorem addTo_simulates (hrun : Simulates options packages (· ≠ 0) run search)
    (hsearch : ∀ s q s', search s q = some s' → Grows beenHere s s' ∧ beenHere q ∈ s'.map beenHere)
    (hsane : Sane st stack added) (hnames : ∀ q ∈ packages.dependencies p, IsName q) (hp : p ∈ st.examined)
    (hnew : p ∉ stack) (h : (follow options packages st.depth p).foldlM search st.examined = some seen') :
    ∃ st' added', addTo options packages run st p = some st' ∧ st'.examined = seen' ∧ Sane st' stack added' ∧
      Followed options packages st st' added added' := by
  rw [follow] at h
  rw [addTo]
  by_cases hadds : adds options packages st.depth p = true
  · have hitems : ∀ n ∈ added, IsItem blank.char n :=
      fun n hn => (hsane.names n (hsane.list hn)).item (by decide)
    have hlisted : Sane { st with deplist := varAppend blank p st.deplist } stack (added ++ [p]) := by
      refine ⟨hsane.deptree, hsane.path, hsane.marks, hsane.names, ?_, ?_⟩
      · rw [hsane.deplist]
        exact varAppend_joined blank hitems
      · rw [List.append_subset, List.cons_subset]
        exact ⟨hsane.list, hp, List.nil_subset _⟩
    rw [if_pos hadds]
    by_cases hindirect : options.deps = .indirect
    · rw [if_pos ⟨hindirect, hadds⟩] at h
      obtain ⟨st', added', hst', hexamined, hsane', hfollowed⟩ :=
        dep4pkg_simulates hrun hlisted hnames hp hnew h
      refine ⟨st', added',
        by simpa only [if_pos hindirect] using hst', hexamined, hsane', hfollowed.old, hfollowed.depth,
        hfollowed.deptree, hfollowed.calls, fun hmode x hx => ?_⟩
      rcases hfollowed.behind hmode x hx with hx | hx
      · rcases List.mem_append.mp hx with hx | hx
        · exact .inl hx
        · rw [List.mem_singleton.mp hx, hexamined]
          exact .inr (foldlM_keys hsearch h)
      · exact .inr hx
    · rw [if_neg fun hboth => hindirect hboth.1] at h
      cases h
      exact ⟨_, added ++ [p], if_neg hindirect, rfl, hlisted, fun _ hx => hx, rfl, rfl, fun _ hcall => .inl hcall,
        fun hmode => absurd hmode hindirect⟩
  · rw [if_neg fun hboth => hadds hboth.2] at h
    cases h
    exact ⟨st, added, if_neg hadds, rfl, hsane, .refl st added⟩

/-- Whatever the depth is at which a package is examined, those behind it are examined at another. -/
theorem addIfUpdated_enter (hnames : ∀ q, ∀ n ∈ packages.dependencies q, IsName n)
    (hrun : Simulates options packages (· ≠ 0) (addIfUpdated options packages fuel)
      (visit beenHere (follow options packages 1) fuel)) (d : Nat) :
    Simulates options packages (· = d) (addIfUpdated options packages (fuel + 1))
      (enter beenHere (follow options packages d) (visit beenHere (follow options packages 1) fuel)) := by
  intro st stack added p seen' hsane hp hd h
  subst hd
  rw [enter] at h
  rw [addIfUpdated_succ, hsane.marks]
  by_cases hmark : beenHere p ∈ st.examined.map beenHere
  · rw [if_pos hmark] at h ⊢
    cases h
    exact ⟨st, added, rfl, rfl, hsane, .refl st added⟩
  · rw [if_neg hmark] at h ⊢
    have hnew : p ∉ stack := fun hmem => hmark (List.mem_map_of_mem (hsane.path hmem))
    have hmarked : Sane { st with marks := beenHere p :: st.examined.map beenHere, examined := p :: st.examined } stack added := by
      refine ⟨hsane.deptree, fun n hn => List.mem_cons_of_mem p (hsane.path hn), rfl, fun n hn => ?_, hsane.deplist,
        fun n hn => List.mem_cons_of_mem p (hsane.list hn)⟩
      exact (List.mem_cons.mp hn).elim (fun heq => heq ▸ hp) (hsane.names n)
    obtain ⟨st', added', hst', hexamined, hsane', hfollowed⟩ :=
      addTo_simulates hrun (fun s q s' hq => visit_grows hq) hmarked (hnames p) List.mem_cons_self hnew h
    exact ⟨st', added', hst', hexamined, hsane', fun n hn => hfollowed.old (List.mem_cons_of_mem p hn),
      hfollowed.depth,
      hfollowed.deptree, hfollowed.calls, hfollowed.behind⟩

theorem addIfUpdated_visit (hnames : ∀ q, ∀ n ∈ packages.dependencies q, IsName n) (fuel : Nat) :
    Simulates options packages (· ≠ 0) (addIfUpdated options packages fuel)
      (visit beenHere (follow options packages 1) fuel) := by
  induction fuel with
  | zero => exact fun _ _ _ _ _ _ _ _ h => by cases h
  | succ fuel ih =>
    intro st stack added p seen' hsane hp hd h
    have hfollow : follow options packages st.depth = follow options packages 1 :=
      funext fun q => follow_deep hd
    refine addIfUpdated_enter hnames ih st.depth hsane hp rfl ?_
    rw [hfollow]
    exact h

end Simulation

section Fuel

variable {options : Options} {packages : Packages} {fuel depth : Nat} {st st' : Traversal} {p : Str}
    {requested : List Str}
  {run run' : Traversal → Str → Option Traversal}

end Fuel

section Traverse

variable {options : Options} {packages : Packages} {fuel depth : Nat} {st st' : Traversal}
    {requested added ps seen' : List Str}

/-- All names that may be examined. -/
def mentioned (packages : Packages) (requested : List Str) : List Str :=
  requested ++ packages.cache.flatMap fun entry => entry.2

theorem dependencies_mentioned (packages : Packages) (requested : List Str) (p : Str) :
    packages.dependencies p ⊆ mentioned packages requested := by
  intro q hq
  obtain ⟨entry, hentry, hmem⟩ := List.mem_flatMap.mp hq
  exact List.mem_append_right _ (List.mem_flatMap.mpr ⟨entry, (List.mem_filter.mp hentry).1, hmem⟩)

theorem follow_mentioned (depth : Nat) (p : Str) :
    follow options packages depth p ⊆ mentioned packages requested := by
  rw [follow]
  split
  · exact dependencies_mentioned packages requested p
  · exact List.nil_subset _

/-- The packages whose dependencies the last loop examines are named in the list. -/
theorem dep4pkgs_simulates (hnames : ∀ q, ∀ n ∈ packages.dependencies q, IsName n) (hsane : Sane st [] added)
    (hps : ps ⊆ st.examined)
    (h : (ps.flatMap packages.dependencies).foldlM (visit beenHere (follow options packages 1) fuel) st.examined = some seen') :
    ∃ st' added', ps.foldlM (dep4pkg packages (addIfUpdated options packages fuel)) st = some st' ∧
    st'.examined = seen' ∧
      Sane st' [] added' ∧ Followed options packages st st' added added' := by
  rw [foldlM_flatMap] at h
  induction ps generalizing st added with
  | nil =>
    cases h
    exact ⟨st, added, rfl, rfl, hsane, .refl st added⟩
  | cons p ps ih =>
    obtain ⟨t, hfirst, hrest⟩ := foldlM_cons_some.mp h
    rw [List.cons_subset] at hps
    obtain ⟨u, listed, hu, rfl, hsaneu, hfollowed⟩ :=
      dep4pkg_simulates (addIfUpdated_visit hnames fuel) hsane (hnames p) hps.1 List.not_mem_nil hfirst
    obtain ⟨st', added', hst', hexamined, hsane', hfollowed'⟩ :=
      ih hsaneu (fun q hq => hfollowed.old (hps.2 hq)) hrest
    exact ⟨st', added', foldlM_cons_some.mpr ⟨u, hu, hst'⟩, hexamined, hsane', hfollowed.trans hfollowed'⟩

/-- The packages that the command line and the dependencies lead to. With `-deps=fast` these are the
dependencies of packages that are named and added, with `-deps=indirect` also those of packages that
are added on the way. -/
def Reached (options : Options) (packages : Packages) (depth : Nat) (requested : List Str) : Set Str :=
  match options.deps with
  | .none => {p | p ∈ requested}
  | .fast =>
    {p | p ∈ requested ∨ ∃ r ∈ requested, adds options packages depth r ∧ p ∈ packages.dependencies r}
  | .indirect =>
    let added (depth : Nat) (p : Str) : List Str :=
      if adds options packages depth p then packages.dependencies p else []
    reach (added depth) (added 1) requested

/-- Without `-deps=indirect` the list has the packages that are examined and added. -/
theorem added_direct (hdeps : options.deps ≠ .indirect) (hnames : ∀ p ∈ requested, IsName p)
    (hsane : Sane st' [] added)
    (h : requested.foldlM (addIfUpdated options packages fuel) ⟨[], depth, [], [], [], []⟩ = some st') :
    ∀ p, p ∈ added ↔ p ∈ st'.examined ∧ adds options packages depth p = true := by
  have hinv : st'.depth = depth ∧ ∃ listed, st'.deplist = joined blank.char listed ∧
    (∀ x ∈ listed, IsName x) ∧
      ∀ x, x ∈ listed ↔ x ∈ st'.examined ∧ adds options packages depth x = true := by
    refine @foldlM_invariant _ _ _ _ _ _ (fun st => st.depth = depth ∧ ∃ listed,
      st.deplist = joined blank.char listed ∧
      (∀ x ∈ listed, IsName x) ∧ ∀ x, x ∈ listed ↔ x ∈ st.examined ∧ adds options packages depth x = true) ?_
      ⟨rfl, [], rfl, by simp, by simp⟩ h
    rintro st p st' hp ⟨rfl, listed, hdeplist, hlisted, hmem⟩ hstep
    cases fuel with
    | zero => cases hstep
    | succ fuel =>
      rw [addIfUpdated_succ] at hstep
      by_cases hmark : beenHere p ∈ st.marks
      · rw [if_pos hmark] at hstep
        cases hstep
        exact ⟨rfl, listed, hdeplist, hlisted, hmem⟩
      · rw [if_neg hmark, addTo] at hstep
        simp only [if_neg hdeps] at hstep
        by_cases hadds : adds options packages st.depth p = true
        · rw [if_pos hadds] at hstep
          cases hstep
          refine ⟨rfl, listed ++ [p], ?_, ?_, fun x => ?_⟩
          · rw [hdeplist]
            exact varAppend_joined blank fun x hx => (hlisted x hx).item (by decide)
          · exact fun x hx => (List.mem_append.mp hx).elim (hlisted x) fun hx =>
              List.mem_singleton.mp hx ▸ hnames p hp
          · rw [List.mem_append, hmem, List.mem_singleton, List.mem_cons, or_and_right, or_comm]
            exact or_congr_left ⟨fun heq => ⟨heq, heq ▸ hadds⟩, And.left⟩
        · rw [if_neg hadds] at hstep
          cases hstep
          refine ⟨rfl, listed, hdeplist, hlisted, fun x => ?_⟩
          rw [hmem, List.mem_cons, or_and_right]
          exact ⟨.inr, fun hx => hx.elim (fun heq => absurd (heq.1 ▸ heq.2) hadds) id⟩
  obtain ⟨-, listed, hdeplist, hlisted, hmem⟩ := hinv
  have hitems : ∀ x ∈ added, IsItem blank.char x :=
    fun x hx => (hsane.names x (hsane.list hx)).item (by decide)
  have heq : added = listed :=
    (joined_inj hitems fun x hx => (hlisted x hx).item (by decide)).mp (hsane.deplist.symm.trans hdeplist)
  rwa [heq]

/-- The dependencies that the last loop goes through. -/
def lastLoop (options : Options) (packages : Packages) (added : List Str) : List Str :=
  if options.deps = .none then [] else added.flatMap packages.dependencies

/-- Both parts of the traversal, on the names that are examined. -/
structure Run (options : Options) (packages : Packages) (fuel depth : Nat)
    (requested added seen : List Str) (st : Traversal) :
    Prop where
  requests : requested.foldlM (enter beenHere (follow options packages depth)
    (visit beenHere (follow options packages 1) fuel)) [] =
    some seen
  last : (lastLoop options packages added).foldlM
    (visit beenHere (follow options packages 1) (fuel + 1)) seen = some st.examined
  direct : options.deps ≠ .indirect → ∀ p, p ∈ added ↔ p ∈ seen ∧ adds options packages depth p = true
  indirect : options.deps = .indirect → ∀ p ∈ added, ∀ q ∈ packages.dependencies p,
    beenHere q ∈ seen.map beenHere
  returned : traverse options packages (fuel + 1) depth requested = some st
  depth : st.depth = depth
  deptree : st.deptree = []
  calls : ∀ call ∈ st.calls, call.1 = call.2

theorem exists_run (options : Options) (depth : Nat) (hnames : ∀ n ∈ mentioned packages requested, IsName n) :
    ∃ fuel added seen st, Run options packages fuel depth requested added seen st := by
  have hrequested : ∀ p ∈ requested, IsName p := fun p hp => hnames p (List.mem_append_left _ hp)
  have hdependencies : ∀ q, ∀ n ∈ packages.dependencies q, IsName n :=
    fun q n hn => hnames n (dependencies_mentioned packages requested q hn)
  have hgrows : ∀ fuel s p s', visit beenHere (follow options packages 1) fuel s p = some s' →
    Grows beenHere s s' :=
    fun _ _ _ _ h => (visit_grows h).1
  obtain ⟨fuel, hfuel⟩ : ∃ fuel, fuel = unseen beenHere (mentioned packages requested) [] := ⟨_, rfl⟩
  have hunseen : ∀ s, unseen beenHere (mentioned packages requested) s < fuel + 1 := fun s => by
    rw [hfuel]
    exact Nat.lt_succ_of_le (unseen_le (List.nil_subset s))
  obtain ⟨seen, hseen⟩ : ∃ seen, requested.foldlM (enter beenHere (follow options packages depth)
      (visit beenHere (follow options packages 1) fuel)) [] = some seen := by
    refine foldlM_some (fun s p s' h => (enter_grows (hgrows fuel) h).1) (fun s p hp hs => ?_) ?_ (hunseen [])
    · exact enter_some (hgrows fuel) (fun s q hq hs => visit_some (fun r _ => follow_mentioned 1 r) hq hs)
        (follow_mentioned depth p) hp hs
    · exact fun p hp => List.mem_append_left _ hp
  have hinit : Sane ⟨[], depth, [], [], [], []⟩ [] [] :=
    ⟨rfl, List.nil_subset _, rfl, fun _ h => absurd h List.not_mem_nil, rfl, List.nil_subset _⟩
  obtain ⟨st, added, hst, rfl, hsane, hfollowed⟩ :=
    (addIfUpdated_enter hdependencies (addIfUpdated_visit hdependencies fuel) depth).foldlM hinit
      hrequested rfl hseen
  have hlist : tokens (· == ' ') st.deplist = added := by
    rw [hsane.deplist]
    exact tokens_names (by decide) fun n hn => hsane.names n (hsane.list hn)
  obtain ⟨seen', hseen'⟩ : ∃ seen', (lastLoop options packages added).foldlM
    (visit beenHere (follow options packages 1) (fuel + 1))
      st.examined = some seen' := by
    refine foldlM_some (hgrows (fuel + 1)) (fun s p hp hs =>
      visit_some (fun r _ => follow_mentioned 1 r) hp hs) ?_ (hunseen _)
    rw [lastLoop]
    split
    · exact List.nil_subset _
    · intro q hq
      obtain ⟨p, -, hq⟩ := List.mem_flatMap.mp hq
      exact dependencies_mentioned packages requested p hq
  have hrun : ∀ (st' : Traversal) (added' : List Str),
    Followed options packages st st' added added' → st'.examined = seen' →
      traverse options packages (fuel + 1) depth requested = some st' →
      Run options packages fuel depth requested added st.examined st' := by
    rintro st' added' hlater rfl hreturned
    have hall := hfollowed.trans hlater
    refine ⟨hseen, hseen', fun hdeps => added_direct hdeps hrequested hsane hst, fun hdeps p hp => ?_,
      hreturned, hall.depth,
      hall.deptree, fun call hcall => ?_⟩
    · exact (hfollowed.behind hdeps p hp).elim (fun h => absurd h List.not_mem_nil) id
    · exact (hall.calls call hcall).elim (fun h => absurd h List.not_mem_nil) id
  rw [lastLoop] at hseen'
  by_cases hnone : options.deps = .none
  · rw [if_pos hnone] at hseen'
    refine ⟨fuel, added, st.examined, st, hrun st added (.refl st added) (Option.some.inj hseen') ?_⟩
    rw [traverse, hst, Option.bind_some, hnone]
  · rw [if_neg hnone] at hseen'
    obtain ⟨st', added', hst', hexamined, -, hlater⟩ :=
      dep4pkgs_simulates hdependencies hsane hsane.list hseen'
    refine ⟨fuel, added, st.examined, st', hrun st' added' hlater hexamined ?_⟩
    rw [traverse, hst, Option.bind_some]
    cases hdeps : options.deps with
    | none => exact absurd hdeps hnone
    | fast => simpa only [hlist] using hst'
    | indirect => simpa only [hlist] using hst'

variable {seen : List Str}

theorem follow_direct (hdeps : options.deps ≠ .indirect) (d : Nat) :
    follow options packages d = fun _ => [] := by
  funext p
  rw [follow, if_neg fun h => hdeps h.1]

/-- Without `-deps=indirect` nothing is examined behind the packages that are named, before the last loop. -/
theorem Run.named (h : Run options packages fuel depth requested added seen st)
    (hdeps : options.deps ≠ .indirect)
    (hkey : Set.InjOn beenHere {p | p ∈ requested}) : ∀ p, p ∈ seen ↔ p ∈ requested := by
  have hrequests := h.requests
  rw [follow_direct hdeps, follow_direct hdeps] at hrequests
  have hreach : requested.foldl (reachStep (fun _ => []) fun _ => []) ∅ = {p | p ∈ requested} := by
    ext p
    rw [mem_reach_nil]
    simp
  have hseen :=
    (enter_reach (S := ∅) (fun _ => List.nil_subset []) (by rwa [hreach]) (fun q hq => absurd hq id)
    (fun q => by simp) hrequests).1
  rwa [hreach] at hseen

/-- None of the packages is installed, and `app` has the two others for dependencies. -/
def samplePackages (first second : Str) : Packages where
  confdirs := fun _ => ["package/base".toList]
  installed := fun _ => false
  oVer := fun _ => []
  nVer := fun _ => "1.0".toList
  oCk := fun _ => []
  nCk := fun _ => []
  broken := fun _ => false
  cache := [("app".toList, [first, second]), (first, ["app".toList])]

end Traverse

end T2SDE.Emerge
