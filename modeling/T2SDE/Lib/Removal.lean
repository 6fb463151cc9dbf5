import T2SDE.Lib.FileStore

namespace FileTree

open Text PathName

section Sub

variable {t u : Tree} {cur loc : Loc} {path : Str}

/-- A walk in what is left of a tree is one in the tree. -/
theorem walkFrom_sub {f g : Loc → List Str → Option Loc} (h : ∀ l, u.entry l = t.entry l ∨ u.entry l = none)
    (hfollow : ∀ cur cs loc, g cur cs = some loc → f cur cs = some loc) (cur : Loc) (cs : List Str)
    (hwalk : walkFrom u g cur cs = some loc) : walkFrom t f cur cs = some loc := by
  induction cs generalizing cur with
  | nil => exact hwalk
  | cons c cs ih =>
    rw [walkFrom] at hwalk ⊢
    split_ifs at hwalk ⊢
    · exact ih cur hwalk
    · exact ih cur.dropLast hwalk
    · rcases h (cur ++ [c]) with heq | hnone
      · rw [heq] at hwalk
        cases hentry : t.entry (cur ++ [c]) with
        | none =>
          rw [hentry] at hwalk
          cases hwalk
        | some e =>
          rw [hentry] at hwalk
          cases e with
          | file => cases hwalk
          | dir => exact ih (cur ++ [c]) hwalk
          | link target => exact hfollow _ _ _ hwalk
      · rw [hnone] at hwalk
        cases hwalk

theorem walk_sub (h : ∀ l, u.entry l = t.entry l ∨ u.entry l = none) (n : Nat) (cur : Loc) (cs : List Str)
    (loc : Loc)
    (hwalk : walk u n cur cs = some loc) : walk t n cur cs = some loc := by
  induction n generalizing cur cs loc with
  | zero => exact walkFrom_sub h (fun _ _ _ h => h) cur cs hwalk
  | succ n ih => exact walkFrom_sub h ih cur cs hwalk

theorem locate_entry (hloc : locate t cur path = some loc) : (t.entry loc).isSome := by
  unfold locate at hloc
  split at hloc
  · cases hloc
  · split at hloc
    · rw [← Option.some.inj hloc, t.root]
      rfl
    · obtain ⟨dir, -, hlast⟩ := Option.bind_eq_some_iff.mp hloc
      split at hlast
      next hsome => rwa [← Option.some.inj hlast]
      next => cases hlast

/-- What a path names in what is left of a tree it names in the tree. -/
theorem locate_sub (h : ∀ l, u.entry l = t.entry l ∨ u.entry l = none) (hloc : locate u cur path = some loc) :
    locate t cur path = some loc := by
  have hsome := locate_entry hloc
  unfold locate at hloc ⊢
  split at hloc
  · cases hloc
  next hne =>
    rw [if_neg hne]
    split at hloc
    · exact hloc
    next last _ =>
      obtain ⟨dir, hwalk, hlast⟩ := Option.bind_eq_some_iff.mp hloc
      rw [walk_sub h _ _ _ _ hwalk, Option.bind_some]
      split at hlast
      · obtain rfl := Option.some.inj hlast
        rcases h (enter dir last) with heq | hnone
        · rw [heq] at hsome
          exact if_pos hsome
        · rw [hnone] at hsome
          cases hsome
      · cases hlast

theorem Tree.above_dir {a b : Loc} (hb : b ≠ []) (h : (t.entry (a ++ b)).isSome) : t.entry a = some .dir := by
  rcases List.eq_nil_or_concat b with rfl | ⟨front, c, rfl⟩
  · exact absurd rfl hb
  · rw [List.concat_eq_append, ← List.append_assoc] at h
    exact t.prefix_dir (t.parent _ c h)

/-- Names lead to their place, if there is something. -/
theorem locate_place (hcur : t.entry cur = some .dir) (hne : components path ≠ [])
    (hrel : path.head? ≠ some '/') (hnames : ∀ c ∈ components path, IsName c)
    (h : (t.entry (cur ++ components path)).isSome) : locate t cur path = some (cur ++ components path) := by
  rw [locate_names hcur hne hrel hnames, if_pos h]
  intro front hfront hproper target hlink
  obtain ⟨back, hback⟩ := hfront
  have hrest : back ≠ [] := by
    rintro rfl
    exact hproper (by rw [← hback, List.append_nil])
  rw [← hback, ← List.append_assoc] at h
  rw [t.above_dir hrest h] at hlink
  cases hlink

end Sub

/-- What holds of each place if it holds of all that is in it, and where nothing is. -/
theorem Store.children_first (s : Store) {P : Loc → Prop} (hnone : ∀ loc, s.entry loc = none → P loc)
    (hstep : ∀ loc, (∀ c, P (loc ++ [c])) → P loc) (loc : Loc) : P loc := by
  have hbound : ∀ l : List Loc, ∃ n, ∀ loc ∈ l, loc.length ≤ n := by
    intro l
    induction l with
    | nil => exact ⟨0, fun _ h => absurd h List.not_mem_nil⟩
    | cons x l ih =>
      obtain ⟨n, hn⟩ := ih
      refine ⟨max x.length n, fun loc hloc => ?_⟩
      rcases List.mem_cons.mp hloc with rfl | hloc
      · exact Nat.le_max_left _ _
      · exact Nat.le_trans (hn loc hloc) (Nat.le_max_right _ _)
  obtain ⟨n, hn⟩ := hbound s.places
  have hdeep : ∀ loc, n < loc.length → s.entry loc = none := by
    intro loc hlen
    by_contra hsome
    rw [← ne_eq, Option.ne_none_iff_isSome] at hsome
    have hle := hn loc (s.covers loc hsome)
    omega
  have hall : ∀ k loc, n < loc.length + k → P loc := by
    intro k
    induction k with
    | zero => exact fun loc hlen => hnone loc (hdeep loc hlen)
    | succ k ih =>
      refine fun loc hlen => hstep loc fun c => ih (loc ++ [c]) ?_
      rw [List.length_append, List.length_singleton]
      omega
  exact hall (n + 1) loc (by omega)

section Pass

variable {α : Type}

/-- Each step takes away at most the place of its element. -/
structure Removes (step : Store → α → Store) (spot : α → Loc) (goes : Store → α → Bool) (Inv : Store → Prop)
    (l : List α) : Prop where
  entry : ∀ s, Inv s → ∀ a ∈ l, ∀ loc,
    (step s a).entry loc = if loc = spot a ∧ goes s a = true then none else s.entry loc
  inv : ∀ s, Inv s → ∀ a ∈ l, Inv (step s a)

namespace Removes

variable {step : Store → α → Store} {spot : α → Loc} {goes : Store → α → Bool} {Inv : Store → Prop} {a : α}
  {l front back : List α} {s : Store} {loc : Loc}

theorem mono (h : Removes step spot goes Inv l) {k : List α} (hsub : k ⊆ l) : Removes step spot goes Inv k :=
  ⟨fun s hs a ha => h.entry s hs a (hsub ha), fun s hs a ha => h.inv s hs a (hsub ha)⟩

theorem run_inv (h : Removes step spot goes Inv l) (hs : Inv s) : Inv (l.foldl step s) := by
  induction l generalizing s with
  | nil => exact hs
  | cons a l ih => exact ih (h.mono (List.subset_cons_self a l)) (h.inv s hs a List.mem_cons_self)

/-- A place at which no element removes anything stays what it is. -/
theorem run_kept (h : Removes step spot goes Inv l) (hs : Inv s)
    (hkeep : ∀ t, Inv t → t.entry loc = s.entry loc →
    ∀ a ∈ l, loc = spot a → goes t a = false) : (l.foldl step s).entry loc = s.entry loc := by
  induction l generalizing s with
  | nil => rfl
  | cons a l ih =>
    have hstep : (step s a).entry loc = s.entry loc := by
      rw [h.entry s hs a List.mem_cons_self, if_neg]
      rintro ⟨hspot, hgoes⟩
      rw [hkeep s hs rfl a List.mem_cons_self hspot] at hgoes
      cases hgoes
    rw [List.foldl_cons, ← hstep]
    refine ih (h.mono (List.subset_cons_self a l)) (h.inv s hs a List.mem_cons_self) fun t ht heq b hb => ?_
    exact hkeep t ht (heq.trans hstep) b (List.mem_cons_of_mem a hb)

/-- The other places stay what they are. -/
theorem run_frame (h : Removes step spot goes Inv l) (hs : Inv s) (hloc : ∀ a ∈ l, loc ≠ spot a) :
    (l.foldl step s).entry loc = s.entry loc :=
  h.run_kept hs fun _ _ _ a ha hspot => absurd hspot (hloc a ha)

theorem run_sub (h : Removes step spot goes Inv l) (hs : Inv s) (loc : Loc) :
    (l.foldl step s).entry loc = s.entry loc ∨ (l.foldl step s).entry loc = none := by
  induction l generalizing s with
  | nil => exact .inl rfl
  | cons a l ih =>
    have hrest := ih (h.mono (List.subset_cons_self a l)) (h.inv s hs a List.mem_cons_self)
    rw [h.entry s hs a List.mem_cons_self] at hrest
    rw [List.foldl_cons]
    split at hrest
    · exact .inr (hrest.elim id id)
    · exact hrest

theorem run_none (h : Removes step spot goes Inv l) (hs : Inv s) (hnone : s.entry loc = none) :
    (l.foldl step s).entry loc = none := by
  have hsub := h.run_sub hs loc
  rw [hnone] at hsub
  exact hsub.elim id id

theorem run_some (h : Removes step spot goes Inv l) (hs : Inv s) {e : Entry}
    (he : (l.foldl step s).entry loc = some e) : s.entry loc = some e := by
  rcases h.run_sub hs loc with heq | hnone
  · rw [← heq, he]
  · cases he.symm.trans hnone

/-- What an element removes in its turn is gone in the end. -/
theorem run_gone (h : Removes step spot goes Inv (front ++ a :: back)) (hs : Inv s)
    (hgoes : goes (front.foldl step s) a = true) :
    ((front ++ a :: back).foldl step s).entry (spot a) = none := by
  have hrest := h.mono (List.subset_append_right front (a :: back))
  have hinv := (h.mono (List.subset_append_left front (a :: back))).run_inv hs
  rw [List.foldl_append, List.foldl_cons]
  refine (hrest.mono (List.subset_cons_self a back)).run_none (hrest.inv _ hinv a List.mem_cons_self) ?_
  rw [hrest.entry _ hinv a List.mem_cons_self, if_pos ⟨rfl, hgoes⟩]

/-- What the elements behind have no part in is at the end what it is at the turn of one. -/
theorem run_turn (h : Removes step spot goes Inv (front ++ a :: back)) (hs : Inv s)
    (hloc : ∀ b ∈ a :: back, loc ≠ spot b) :
    ((front ++ a :: back).foldl step s).entry loc = (front.foldl step s).entry loc := by
  rw [List.foldl_append]
  exact (h.mono (List.subset_append_right front (a :: back))).run_frame
    ((h.mono (List.subset_append_left front (a :: back))).run_inv hs) hloc

end Removes

end Pass

end FileTree
