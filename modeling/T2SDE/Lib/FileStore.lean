import T2SDE.Lib.FileTree

namespace FileTree

open Text PathName

deriving instance DecidableEq for Entry

instance (c : Str) : Decidable (IsName c) :=
  inferInstanceAs (Decidable ((c ≠ [] ∧ '/' ∉ c) ∧ c ≠ ['.'] ∧ c ≠ ['.', '.']))

/-- A tree without a place that has no entries of its own. -/
def Tree.remove (t : Tree) (loc : Loc) (hne : loc ≠ []) (hleaf : ∀ c, t.entry (loc ++ [c]) = none) :
    Tree where
  entry := Function.update t.entry loc none
  root := by
    rw [Function.update_of_ne hne.symm]
    exact t.root
  parent := fun l c h => by
    have hchild : l ++ [c] ≠ loc := by
      rintro rfl
      rw [Function.update_self] at h
      cases h
    rw [Function.update_of_ne hchild] at h
    have hparent : l ≠ loc := by
      rintro rfl
      rw [hleaf c] at h
      cases h
    rw [Function.update_of_ne hparent]
    exact t.parent l c h
  name := fun l c h => by
    have hchild : l ++ [c] ≠ loc := by
      rintro rfl
      rw [Function.update_self] at h
      cases h
    rw [Function.update_of_ne hchild] at h
    exact t.name l c h

theorem Tree.entry_remove (t : Tree) {loc : Loc} (hne : loc ≠ []) (hleaf : ∀ c, t.entry (loc ++ [c]) = none)
    (l : Loc) : (t.remove loc hne hleaf).entry l = if l = loc then none else t.entry l :=
  Function.update_apply ..

/-- A file tree with finitely many places in use. -/
structure Store where
  tree : Tree
  places : List Loc
  covers : ∀ loc, (tree.entry loc).isSome → loc ∈ places

namespace Store

variable (s : Store) (loc : Loc)

def entry : Option Entry := s.tree.entry loc

def isEmpty : Bool := s.places.all fun place => place = [] || place.dropLast ≠ loc || (s.entry place).isNone

variable {s loc}

theorem isEmpty_iff : s.isEmpty loc = true ↔ ∀ c, s.entry (loc ++ [c]) = none := by
  rw [isEmpty, List.all_eq_true]
  constructor
  · intro h c
    by_contra hsome
    rw [← ne_eq, Option.ne_none_iff_isSome] at hsome
    have hc := h _ (s.covers _ hsome)
    have hnone : ¬(s.entry (loc ++ [c])).isNone = true := by
      rw [Option.isNone_iff_eq_none, ← ne_eq, Option.ne_none_iff_isSome]
      exact hsome
    simp [hnone] at hc
  · intro h place _
    rcases List.eq_nil_or_concat place with rfl | ⟨l, c, rfl⟩
    · simp
    · rw [List.concat_eq_append, List.dropLast_concat]
      by_cases hl : l = loc
      · subst hl
        simp [h c]
      · simp [hl]

theorem remove_covers (s : Store) (hleaf : ∀ c, s.tree.entry (loc ++ [c]) = none) (hne : loc ≠ []) (l : Loc)
    (h : ((s.tree.remove loc hne hleaf).entry l).isSome) : l ∈ s.places := by
  rw [Tree.entry_remove] at h
  split at h
  · cases h
  · exact s.covers l h

def remove (s : Store) (loc : Loc) (hne : loc ≠ []) (hleaf : ∀ c, s.entry (loc ++ [c]) = none) : Store where
  tree := s.tree.remove loc hne hleaf
  places := s.places
  covers := remove_covers s hleaf hne

theorem entry_remove (hne : loc ≠ []) (hleaf : ∀ c, s.entry (loc ++ [c]) = none) (l : Loc) :
    (s.remove loc hne hleaf).entry l = if l = loc then none else s.entry l :=
  Tree.entry_remove s.tree hne hleaf l

theorem ne_nil_of_entry {e : Entry} (h : s.entry loc = some e) (hdir : e ≠ .dir) : loc ≠ [] := by
  rintro rfl
  have hroot : s.entry [] = some .dir := s.tree.root
  rw [hroot] at h
  exact hdir (Option.some.inj h).symm

theorem leaf_of_entry {e : Entry} (h : s.entry loc = some e) (hdir : e ≠ .dir) (c : Str) :
    s.entry (loc ++ [c]) = none := by
  by_contra hsome
  rw [← ne_eq, Option.ne_none_iff_isSome] at hsome
  have hparent : s.entry loc = some .dir := s.tree.parent loc c hsome
  rw [hparent] at h
  exact hdir (Option.some.inj h).symm

/-- What `rm -f` does with a place. -/
def unlink (s : Store) (loc : Loc) : Store :=
  match h : s.entry loc with
  | some .file => s.remove loc (ne_nil_of_entry h Entry.noConfusion) (leaf_of_entry h Entry.noConfusion)
  | some (.link _) => s.remove loc (ne_nil_of_entry h Entry.noConfusion) (leaf_of_entry h Entry.noConfusion)
  | _ => s

def rmdir (s : Store) (loc : Loc) : Store :=
  if h : s.entry loc = some .dir ∧ loc ≠ [] ∧ s.isEmpty loc =
    true then s.remove loc h.2.1 (isEmpty_iff.mp h.2.2)
  else s

theorem entry_unlink (s : Store) (loc l : Loc) : (s.unlink loc).entry l =
    if l = loc ∧ s.entry loc ≠ some .dir then none else s.entry l := by
  unfold unlink
  split
  next h =>
    rw [entry_remove]
    simp [h]
  next target h =>
    rw [entry_remove]
    simp [h]
  next hfile hlink =>
    by_cases hl : l = loc
    · subst hl
      cases hentry : s.entry l with
      | none => simp
      | some e =>
        cases e with
        | file => exact absurd hentry hfile
        | link target => exact absurd hentry (hlink target)
        | dir => simp
    · simp [hl]

theorem entry_rmdir (s : Store) (loc l : Loc) : (s.rmdir loc).entry l =
    if l = loc ∧ s.entry loc = some .dir ∧ loc ≠ [] ∧ s.isEmpty loc = true then none else s.entry l := by
  unfold rmdir
  split
  next h =>
    rw [entry_remove]
    simp [h]
  next h => simp [h]

end Store

section Below

variable {t u : Tree} {cur loc : Loc} {cs : List Str} {n : Nat}

/-- A walk along names that lead through no link. -/
theorem walkFrom_names {follow : Loc → List Str → Option Loc} (hcur : t.entry cur = some .dir)
    (hnames : ∀ c ∈ cs, IsName c)
    (hlinks : ∀ front, front <+: cs → ∀ target, t.entry (cur ++ front) ≠ some (.link target)) :
    walkFrom t follow cur cs = if t.entry (cur ++ cs) = some .dir then some (cur ++ cs) else none := by
  induction cs generalizing cur with
  | nil => rw [walkFrom, List.append_nil, if_pos hcur]
  | cons c cs ih =>
    have hname := hnames c List.mem_cons_self
    have happend : cur ++ c :: cs = (cur ++ [c]) ++ cs := by simp
    have hlink := hlinks [c] (List.cons_prefix_cons.mpr ⟨rfl, List.nil_prefix⟩)
    rw [walkFrom, if_neg hname.2.1, if_neg hname.2.2, happend]
    have hnodir : t.entry (cur ++ [c]) ≠ some .dir → t.entry ((cur ++ [c]) ++ cs) ≠ some .dir :=
      fun hc h => hc (t.prefix_dir h)
    cases hc : t.entry (cur ++ [c]) with
    | none => rw [if_neg (hnodir (by rw [hc]; simp))]
    | some e =>
      cases e with
      | file => rw [if_neg (hnodir (by rw [hc]; simp))]
      | link target => exact absurd hc (hlink target)
      | dir =>
        refine ih hc (fun d hd => hnames d (List.mem_cons_of_mem c hd)) fun front hfront target => ?_
        have hlong := hlinks (c :: front) (List.cons_prefix_cons.mpr ⟨rfl, hfront⟩) target
        rwa [List.append_assoc]

theorem walk_names (n : Nat) (hcur : t.entry cur = some .dir) (hnames : ∀ c ∈ cs, IsName c)
    (hlinks : ∀ front, front <+: cs → ∀ target, t.entry (cur ++ front) ≠ some (.link target)) :
    walk t n cur cs = if t.entry (cur ++ cs) = some .dir then some (cur ++ cs) else none := by
  cases n with
  | zero => exact walkFrom_names hcur hnames hlinks
  | succ n => exact walkFrom_names hcur hnames hlinks

theorem enter_name {c : Str} (h : IsName c) (dir : Loc) : enter dir c = dir ++ [c] := by
  rw [enter, if_neg h.2.1, if_neg h.2.2]

/-- A path of names that lead through no link names their place. -/
theorem locate_names {path : Str} (hcur : t.entry cur = some .dir) (hne : components path ≠ [])
    (hrel : path.head? ≠ some '/') (hnames : ∀ c ∈ components path, IsName c)
    (hlinks : ∀ front, front <+: components path → front ≠ components path →
      ∀ target, t.entry (cur ++ front) ≠ some (.link target)) :
    locate t cur path =
      if (t.entry (cur ++ components path)).isSome then some (cur ++ components path) else none := by
  have hpath : path ≠ [] := by
    rintro rfl
    exact hne rfl
  rcases List.eq_nil_or_concat (components path) with hnil | ⟨front, last, hcs⟩
  · exact absurd hnil hne
  · rw [List.concat_eq_append] at hcs
    rw [hcs] at hnames hlinks
    have hlast : IsName last := hnames last (by simp)
    have hwalk := walk_names maxLinks hcur (fun c hc => hnames c (List.mem_append_left _ hc))
      fun l hl => hlinks l (hl.trans (List.prefix_append front [last])) fun heq => by
        have hlen := hl.length_le
        rw [heq, List.length_append, List.length_singleton] at hlen
        omega
    rw [locate, if_neg hpath, hcs, List.getLast?_concat, start, if_neg hrel]
    dsimp only
    rw [List.dropLast_concat, hwalk, ← List.append_assoc]
    by_cases hdir : t.entry (cur ++ front) = some .dir
    · rw [if_pos hdir, Option.bind_some, enter_name hlast]
    · have hnone : ¬(t.entry ((cur ++ front) ++ [last])).isSome = true := fun h => hdir (t.parent _ _ h)
      rw [if_neg hdir, if_neg hnone]
      rfl

/-- Files have no part in a walk. -/
theorem walkFrom_files {f g : Loc → List Str → Option Loc}
    (h : ∀ l, u.entry l = t.entry l ∨ t.entry l = some .file ∧ u.entry l = none)
    (hfollow : ∀ cur cs, g cur cs = f cur cs) (cur : Loc) (cs : List Str) :
    walkFrom u g cur cs = walkFrom t f cur cs := by
  induction cs generalizing cur with
  | nil => rfl
  | cons c cs ih =>
    rw [walkFrom, walkFrom, ih cur, ih cur.dropLast]
    rcases h (cur ++ [c]) with heq | ⟨hfile, hnone⟩
    · rw [heq, ih (cur ++ [c])]
      simp only [hfollow]
    · rw [hfile, hnone]

theorem walk_files (h : ∀ l, u.entry l = t.entry l ∨ t.entry l = some .file ∧ u.entry l = none) (n : Nat)
    (cur : Loc) (cs : List Str) : walk u n cur cs = walk t n cur cs := by
  induction n generalizing cur cs with
  | zero => exact walkFrom_files h (fun _ _ => rfl) cur cs
  | succ n ih => exact walkFrom_files h ih cur cs

/-- A path names the same as before, where just files have gone and it is not the path of one of these. -/
theorem locate_files (h : ∀ l, u.entry l = t.entry l ∨ t.entry l = some .file ∧ u.entry l = none) {path : Str}
    (hloc : locate t cur path = some loc) (hsome : (u.entry loc).isSome) : locate u cur path = some loc := by
  unfold locate at hloc ⊢
  split at hloc
  · cases hloc
  next hne =>
    rw [if_neg hne]
    split at hloc
    · exact hloc
    next last _ =>
      obtain ⟨dir, hwalk, hlast⟩ := Option.bind_eq_some_iff.mp hloc
      rw [walk_files h, hwalk, Option.bind_some]
      split at hlast
      · obtain rfl := Option.some.inj hlast
        exact if_pos hsome
      · cases hlast

end Below

section Lists

def lookup (l : List (Loc × Entry)) (loc : Loc) : Option Entry :=
  if loc = [] then some .dir else (l.find? fun p => p.1 = loc).map Prod.snd

/-- Each place of the list stands in a directory, under a name. -/
def consistent (l : List (Loc × Entry)) : Bool := l.all fun p =>
  lookup l p.1.dropLast == some .dir && p.1.all fun c =>
    c != [] && !c.contains '/' && c != ['.'] && c != ['.', '.']

theorem mem_of_lookup {l : List (Loc × Entry)} {loc : Loc} (hne : loc ≠ []) (h : (lookup l loc).isSome) :
    ∃ p ∈ l, p.1 = loc := by
  rw [lookup, if_neg hne, Option.isSome_map] at h
  obtain ⟨p, hp⟩ := Option.isSome_iff_exists.mp h
  exact ⟨p, List.mem_of_find?_eq_some hp, by simpa using List.find?_some hp⟩

theorem entry_of_lookup {l : List (Loc × Entry)} {loc : Loc} {e : Entry} (h : lookup l loc = some e) :
    e = .dir ∨ ∃ p ∈ l, p.2 = e := by
  unfold lookup at h
  split at h
  · exact .inl (Option.some.inj h).symm
  · obtain ⟨p, hp, rfl⟩ := Option.map_eq_some_iff.mp h
    exact .inr ⟨p, List.mem_of_find?_eq_some hp, rfl⟩

theorem consistent_parent {l : List (Loc × Entry)} (h : consistent l = true) (loc : Loc) (c : Str)
    (hsome : (lookup l (loc ++ [c])).isSome) : lookup l loc = some .dir ∧ IsName c := by
  obtain ⟨p, hp, heq⟩ := mem_of_lookup (by simp) hsome
  have hcheck := List.all_eq_true.mp h p hp
  rw [heq, List.dropLast_concat, Bool.and_eq_true, beq_iff_eq] at hcheck
  refine ⟨hcheck.1, ?_⟩
  have hname := List.all_eq_true.mp hcheck.2 c (by simp)
  simpa [IsName, IsComponent, and_assoc] using hname

/-- The tree of a list of places. -/
def Store.ofList (l : List (Loc × Entry)) (h : consistent l = true) : Store where
  tree := {
    entry := lookup l
    root := rfl
    parent := fun loc c hsome => (consistent_parent h loc c hsome).1
    name := fun loc c hsome => (consistent_parent h loc c hsome).2 }
  places := [] :: l.map Prod.fst
  covers := fun loc hsome => by
    by_cases hne : loc = []
    · exact hne ▸ .head _
    · obtain ⟨p, hp, rfl⟩ := mem_of_lookup hne hsome
      exact .tail _ (List.mem_map_of_mem hp)

end Lists

end FileTree
