import Mathlib.Data.Finset.Card
import Mathlib.Data.Set.Function
import Mathlib.Logic.Relation

namespace DepthFirst

open Relation

section Fold

variable {σ α : Type} {run run' : σ → α → Option σ} {s s' : σ} {p : α} {ps : List α}

theorem foldlM_cons_some : (p :: ps).foldlM run s = some s' ↔ ∃ t,
    run s p = some t ∧ ps.foldlM run t = some s' := by
  rw [List.foldlM_cons]
  exact Option.bind_eq_some_iff

theorem foldlM_invariant {Inv : σ → Prop} (hrun : ∀ s p s', p ∈ ps → Inv s → run s p = some s' → Inv s')
    (hs : Inv s)
    (h : ps.foldlM run s = some s') : Inv s' := by
  induction ps generalizing s with
  | nil =>
    cases h
    exact hs
  | cons p ps ih =>
    obtain ⟨t, hfirst, hrest⟩ := foldlM_cons_some.mp h
    have ht := hrun s p t List.mem_cons_self hs hfirst
    exact ih (fun u q u' hq => hrun u q u' (List.mem_cons_of_mem p hq)) ht hrest

theorem foldlM_flatMap {β : Type} (f : β → List α) (xs : List β) (s : σ) :
    (xs.flatMap f).foldlM run s = xs.foldlM (fun t x => (f x).foldlM run t) s := by
  induction xs generalizing s with
  | nil => rfl
  | cons x xs ih =>
    rw [List.flatMap_cons, List.foldlM_append, List.foldlM_cons]
    exact congrArg _ (funext ih)

end Fold

section Search

variable {α κ : Type}

/-- What every search does, whatever the keys are. -/
structure Grows (key : α → κ) (seen seen' : List α) : Prop where
  old : seen ⊆ seen'
  once : (seen.map key).Nodup → (seen'.map key).Nodup

theorem Grows.refl {key : α → κ} (seen : List α) : Grows key seen seen := ⟨fun _ h => h, id⟩

theorem Grows.trans {key : α → κ} {seen t seen' : List α} (h : Grows key seen t) (h' : Grows key t seen') :
    Grows key seen seen' :=
  ⟨fun _ hq => h'.old (h.old hq), h'.once ∘ h.once⟩

theorem foldlM_grows {key : α → κ} {run : List α → α → Option (List α)} {seen seen' ps : List α}
    (hrun : ∀ s p s', run s p = some s' → Grows key s s')
    (h : ps.foldlM run seen = some seen') : Grows key seen seen' :=
  foldlM_invariant (fun s p s' _ hs hstep => hs.trans (hrun s p s' hstep)) (.refl seen) h

variable [DecidableEq κ]

/-- What is seen, the latest first, when a node is left. A node counts as seen if one with its key is. -/
def enter (key : α → κ) (first : α → List α) (visit : List α → α → Option (List α)) (seen : List α) (p : α) :
    Option (List α) :=
  if key p ∈ seen.map key then some seen else (first p).foldlM visit (p :: seen)

/-- The search from a node; the number bounds how deep it goes. -/
def visit (key : α → κ) (next : α → List α) : Nat → List α → α → Option (List α)
  | 0 => fun _ _ => none
  | fuel + 1 => enter key next (visit key next fuel)

variable {key : α → κ} {first next : α → List α} {run : List α → α → Option (List α)} {fuel : Nat}
  {seen seen' nodes ps : List α} {p : α}

theorem enter_grows (hrun : ∀ s p s', run s p = some s' → Grows key s s')
    (h : enter key first run seen p = some seen') :
    Grows key seen seen' ∧ key p ∈ seen'.map key := by
  rw [enter] at h
  by_cases hp : key p ∈ seen.map key
  · rw [if_pos hp] at h
    cases h
    exact ⟨.refl seen, hp⟩
  · rw [if_neg hp] at h
    have hrest := foldlM_grows hrun h
    have hnew : Grows key seen (p :: seen) :=
      ⟨List.subset_cons_self p seen, fun hnodup => List.nodup_cons.mpr ⟨hp, hnodup⟩⟩
    exact ⟨hnew.trans hrest, List.mem_map_of_mem (hrest.old List.mem_cons_self)⟩

theorem visit_grows (h : visit key next fuel seen p = some seen') :
    Grows key seen seen' ∧ key p ∈ seen'.map key := by
  induction fuel generalizing seen p seen' with
  | zero => cases h
  | succ fuel ih => exact enter_grows (fun s q s' hq => (ih hq).1) h

/-- How many keys are not seen yet. -/
def unseen (key : α → κ) (nodes seen : List α) : Nat :=
  ((nodes.map key).toFinset \ (seen.map key).toFinset).card

theorem unseen_le (h : seen ⊆ seen') : unseen key nodes seen' ≤ unseen key nodes seen := by
  refine Finset.card_le_card (Finset.sdiff_subset_sdiff (Finset.Subset.refl _) ?_)
  intro k hk
  rw [List.mem_toFinset] at hk ⊢
  exact List.map_subset key h hk

theorem unseen_lt (hp : p ∈ nodes) (hnew : key p ∉ seen.map key) :
    unseen key nodes (p :: seen) < unseen key nodes seen := by
  refine Finset.card_lt_card ⟨?_, fun hsub => ?_⟩
  · refine Finset.sdiff_subset_sdiff (Finset.Subset.refl _) ?_
    intro k hk
    rw [List.mem_toFinset] at hk ⊢
    exact List.mem_cons_of_mem (key p) hk
  · have hleft : key p ∈ (nodes.map key).toFinset \ (seen.map key).toFinset := by
      rw [Finset.mem_sdiff, List.mem_toFinset, List.mem_toFinset]
      exact ⟨List.mem_map_of_mem hp, hnew⟩
    have hright := (Finset.mem_sdiff.mp (hsub hleft)).2
    rw [List.mem_toFinset, List.map_cons] at hright
    exact hright List.mem_cons_self

theorem foldlM_some {n : Nat} (hgrows : ∀ s p s', run s p = some s' → Grows key s s')
    (hrun : ∀ s p, p ∈ nodes → unseen key nodes s < n → ∃ s', run s p = some s') (hps : ps ⊆ nodes)
    (hn : unseen key nodes seen < n) : ∃ seen', ps.foldlM run seen = some seen' := by
  induction ps generalizing seen with
  | nil => exact ⟨seen, rfl⟩
  | cons p ps ih =>
    obtain ⟨t, hfirst⟩ := hrun seen p (hps List.mem_cons_self) hn
    have hless : unseen key nodes t < n := Nat.lt_of_le_of_lt (unseen_le (hgrows _ _ _ hfirst).old) hn
    obtain ⟨seen', hrest⟩ := ih (fun q hq => hps (List.mem_cons_of_mem p hq)) hless
    exact ⟨seen', foldlM_cons_some.mpr ⟨t, hfirst, hrest⟩⟩

theorem enter_some (hrun : ∀ s p s', run s p = some s' → Grows key s s')
    (hlower : ∀ s q, q ∈ nodes → unseen key nodes s < fuel → ∃ s', run s q = some s')
    (hfirst : first p ⊆ nodes)
    (hp : p ∈ nodes) (hfuel : unseen key nodes seen < fuel + 1) :
    ∃ seen', enter key first run seen p = some seen' := by
  rw [enter]
  by_cases hnew : key p ∈ seen.map key
  · exact ⟨seen, if_pos hnew⟩
  · have hless := unseen_lt hp hnew
    rw [if_neg hnew]
    exact foldlM_some hrun hlower hfirst (by omega)

/-- A search in finitely many nodes ends. -/
theorem visit_some (hnodes : ∀ q ∈ nodes, next q ⊆ nodes) (hp : p ∈ nodes)
    (hfuel : unseen key nodes seen < fuel) : ∃ seen', visit key next fuel seen p = some seen' := by
  induction fuel generalizing seen p with
  | zero => exact absurd hfuel (Nat.not_lt_zero _)
  | succ fuel ih =>
    exact enter_some (fun _ _ _ h => (visit_grows h).1) (fun s q hq hs => ih hq hs) (hnodes p hp) hp hfuel

omit [DecidableEq κ] in
theorem foldlM_keys (hrun : ∀ s q s', run s q = some s' → Grows key s s' ∧ key q ∈ s'.map key)
    (h : ps.foldlM run seen = some seen') : ∀ q ∈ ps, key q ∈ seen'.map key := by
  induction ps generalizing seen with
  | nil => exact fun _ hq => absurd hq List.not_mem_nil
  | cons p ps ih =>
    obtain ⟨t, hfirst, hrest⟩ := foldlM_cons_some.mp h
    intro q hq
    rcases List.mem_cons.mp hq with rfl | hq
    · have hgrows := foldlM_grows (fun s q s' hq => (hrun s q s' hq).1) hrest
      exact List.map_subset key hgrows.old (hrun _ _ _ hfirst).2
    · exact ih hrest q hq

end Search

section Reach

variable {α κ : Type} {key : α → κ} {first next : α → List α} {seen seen' roots ps : List α} {p q : α}
    {S : Set α}

def Reaches (next : α → List α) : α → α → Prop := ReflTransGen fun p q => q ∈ next p

/-- A search from the roots has seen what they reach and what was seen before, and has left all that
is new. -/
structure Explored (next : α → List α) (seen seen' roots : List α) : Prop where
  old : seen ⊆ seen'
  root : roots ⊆ seen'
  reached : ∀ q ∈ seen', q ∈ seen ∨ ∃ p ∈ roots, Reaches next p q
  closed : ∀ q ∈ seen', q ∉ seen → next q ⊆ seen'

theorem Explored.nil (seen : List α) : Explored next seen seen [] :=
  ⟨fun _ h => h, List.nil_subset seen, fun _ h => .inl h, fun _ h hnew => absurd h hnew⟩

theorem Explored.known (hp : p ∈ seen) : Explored next seen seen [p] := by
  refine ⟨fun _ h => h, ?_, fun _ h => .inl h, fun _ h hnew => absurd h hnew⟩
  rwa [List.cons_subset, and_iff_left (List.nil_subset seen)]

theorem Explored.cons {t : List α} (h : Explored next seen t [p]) (h' : Explored next t seen' ps) :
    Explored next seen seen' (p :: ps) := by
  constructor
  · exact fun q hq => h'.old (h.old hq)
  · rw [List.cons_subset]
    exact ⟨h'.old (h.root List.mem_cons_self), h'.root⟩
  · intro q hq
    rcases h'.reached q hq with hq | ⟨r, hr, hreach⟩
    · rcases h.reached q hq with hq | ⟨r, hr, hreach⟩
      · exact .inl hq
      · rw [List.mem_singleton.mp hr] at hreach
        exact .inr ⟨p, List.mem_cons_self, hreach⟩
    · exact .inr ⟨r, List.mem_cons_of_mem p hr, hreach⟩
  · intro q hq hnew
    by_cases ht : q ∈ t
    · exact fun r hr => h'.old (h.closed q ht hnew hr)
    · exact h'.closed q hq ht

/-- A new node, behind the search from the nodes next to it. -/
theorem Explored.enter (h : Explored next (p :: seen) seen' (next p)) : Explored next seen seen' [p] := by
  constructor
  · exact fun q hq => h.old (List.mem_cons_of_mem p hq)
  · rw [List.cons_subset, and_iff_left (List.nil_subset seen')]
    exact h.old List.mem_cons_self
  · intro q hq
    rcases h.reached q hq with hq | ⟨r, hr, hreach⟩
    · rcases List.mem_cons.mp hq with rfl | hq
      · exact .inr ⟨q, List.mem_singleton_self q, .refl⟩
      · exact .inl hq
    · exact .inr ⟨p, List.mem_singleton_self p, ReflTransGen.head hr hreach⟩
  · intro q hq hnew
    by_cases heq : q = p
    · rw [heq]
      exact h.root
    · exact h.closed q hq (List.not_mem_cons_of_ne_of_not_mem heq hnew)

theorem mem_of_key (hkey : Set.InjOn key S) (hseen : ∀ q ∈ seen, q ∈ S) (hp : p ∈ S) :
    key p ∈ seen.map key ↔ p ∈ seen := by
  refine ⟨fun h => ?_, fun h => List.mem_map_of_mem h⟩
  obtain ⟨q, hq, heq⟩ := List.mem_map.mp h
  rwa [← hkey (hseen q hq) hp heq]

variable [DecidableEq κ] {run : List α → α → Option (List α)} {fuel : Nat}

theorem foldlM_explored (hS : ∀ r ∈ S, ∀ q ∈ next r, q ∈ S)
    (hrun : ∀ s p s', (∀ q ∈ s, q ∈ S) → p ∈ S → run s p = some s' → Explored next s s' [p])
    (hseen : ∀ q ∈ seen, q ∈ S) (hps : ∀ p ∈ ps, p ∈ S) (h : ps.foldlM run seen = some seen') :
    Explored next seen seen' ps := by
  have hreaches : ∀ {p q}, p ∈ S → Reaches next p q → q ∈ S := by
    intro p q hp hreach
    induction hreach with
    | refl => exact hp
    | tail _ hstep ih => exact hS _ ih _ hstep
  induction ps generalizing seen with
  | nil =>
    cases h
    exact .nil _
  | cons p ps ih =>
    obtain ⟨t, hfirst, hrest⟩ := foldlM_cons_some.mp h
    have hp := hps p List.mem_cons_self
    have hexplored := hrun seen p t hseen hp hfirst
    refine hexplored.cons (ih (fun q hq => ?_) (fun q hq => hps q (List.mem_cons_of_mem p hq)) hrest)
    rcases hexplored.reached q hq with hq | ⟨r, hr, hreach⟩
    · exact hseen q hq
    · rw [List.mem_singleton.mp hr] at hreach
      exact hreaches hp hreach

/-- Where the keys tell the nodes apart, the search is exact. -/
theorem visit_explored (hkey : Set.InjOn key S) (hS : ∀ r ∈ S, ∀ q ∈ next r, q ∈ S)
    (hseen : ∀ q ∈ seen, q ∈ S) (hp : p ∈ S)
    (h : visit key next fuel seen p = some seen') : Explored next seen seen' [p] := by
  induction fuel generalizing seen p seen' with
  | zero => cases h
  | succ fuel ih =>
    rw [visit, DepthFirst.enter] at h
    have hmem := mem_of_key hkey hseen hp
    by_cases hold : p ∈ seen
    · rw [if_pos (hmem.mpr hold)] at h
      cases h
      exact .known hold
    · rw [if_neg fun hknown => hold (hmem.mp hknown)] at h
      refine .enter (foldlM_explored hS (fun s q s' hs hq hstep => ih hs hq hstep) ?_ (hS p hp) h)
      exact fun q hq => (List.mem_cons.mp hq).elim (fun heq => heq ▸ hp) (hseen q)

end Reach

section Requests

variable {α κ : Type} {key : α → κ} {first next : α → List α} {seen seen' requested : List α} {p q r : α}
    {S : Set α}

/-- A request adds what it reaches, unless it is reached already. From itself it goes to the nodes
of `first`. -/
def reachStep (first next : α → List α) (S : Set α) (r : α) : Set α :=
  {q | q ∈ S ∨ r ∉ S ∧ (q = r ∨ ∃ p ∈ first r, Reaches next p q)}

def reach (first next : α → List α) (requested : List α) : Set α := requested.foldl (reachStep first next) ∅

def Closed (next : α → List α) (S : Set α) : Prop := ∀ q ∈ S, ∀ p ∈ next q, p ∈ S

theorem Closed.reachStep (hfirst : ∀ r, next r ⊆ first r) (hS : Closed next S) (r : α) :
    Closed next (reachStep first next S r) := by
  rintro q (hq | ⟨hr, rfl | ⟨x, hx, hreach⟩⟩) p hp
  · exact .inl (hS q hq p hp)
  · exact .inr ⟨hr, .inr ⟨p, hfirst q hp, .refl⟩⟩
  · exact .inr ⟨hr, .inr ⟨x, hx, .tail hreach hp⟩⟩

theorem subset_foldl_reachStep (S : Set α) (requested : List α) :
    S ⊆ requested.foldl (reachStep first next) S := by
  induction requested generalizing S with
  | nil => exact fun _ h => h
  | cons r requested ih => exact fun q hq => ih (reachStep first next S r) (.inl hq)

variable [DecidableEq κ] {fuel : Nat}

theorem enter_reachStep (hfirst : ∀ r, next r ⊆ first r) (hkey : Set.InjOn key (reachStep first next S r))
    (hS : Closed next S) (hseen : ∀ q, q ∈ seen ↔ q ∈ S)
    (h : enter key first (visit key next fuel) seen r = some seen') :
    ∀ q, q ∈ seen' ↔ q ∈ reachStep first next S r := by
  have hclosed := hS.reachStep hfirst r
  have hold : ∀ q ∈ seen, q ∈ reachStep first next S r := fun q hq => .inl ((hseen q).mp hq)
  rw [enter] at h
  by_cases hr : r ∈ S
  · rw [if_pos (List.mem_map_of_mem ((hseen r).mpr hr))] at h
    cases h
    exact fun q => ⟨fun hq => hold q hq, fun hq => hq.elim (hseen q).mpr fun hnew => absurd hr hnew.1⟩
  · have hroot : r ∈ reachStep first next S r := .inr ⟨hr, .inl rfl⟩
    have hnew : key r ∉ seen.map key := fun hmem => hr ((hseen r).mp ((mem_of_key hkey hold hroot).mp hmem))
    rw [if_neg hnew] at h
    have hbehind : ∀ q ∈ r :: seen, q ∈ reachStep first next S r :=
      fun q hq => (List.mem_cons.mp hq).elim (fun heq => heq ▸ hroot) (hold q)
    have hexplored :=
      foldlM_explored hclosed (fun s q s' hs hq hstep => visit_explored hkey hclosed hs hq hstep) hbehind
      (fun q hq => .inr ⟨hr, .inr ⟨q, hq, .refl⟩⟩) h
    intro q
    constructor
    · intro hq
      rcases hexplored.reached q hq with hq | ⟨p, hp, hreach⟩
      · exact hbehind q hq
      · exact .inr ⟨hr, .inr ⟨p, hp, hreach⟩⟩
    · rintro (hq | ⟨-, rfl | ⟨p, hp, hreach⟩⟩)
      · exact hexplored.old (List.mem_cons_of_mem r ((hseen q).mpr hq))
      · exact hexplored.old List.mem_cons_self
      · -- what is seen is left: it was seen before, is the request, or is new
        induction hreach with
        | refl => exact hexplored.root hp
        | @tail x y _ hstep ih =>
          by_cases hx : x ∈ r :: seen
          · rcases List.mem_cons.mp hx with rfl | hx
            · exact hexplored.root (hfirst x hstep)
            · exact hexplored.old (List.mem_cons_of_mem r ((hseen y).mpr (hS x ((hseen x).mp hx) y hstep)))
          · exact hexplored.closed x ih hx hstep

/-- Where the keys tell the nodes apart that are reached, just these are seen. -/
theorem enter_reach (hfirst : ∀ r, next r ⊆ first r)
    (hkey : Set.InjOn key (requested.foldl (reachStep first next) S))
    (hS : Closed next S) (hseen : ∀ q, q ∈ seen ↔ q ∈ S)
    (h : requested.foldlM (enter key first (visit key next fuel)) seen = some seen') :
    (∀ q, q ∈ seen' ↔ q ∈ requested.foldl (reachStep first next) S) ∧
      Closed next (requested.foldl (reachStep first next) S) := by
  induction requested generalizing seen S with
  | nil =>
    cases h
    exact ⟨hseen, hS⟩
  | cons r requested ih =>
    obtain ⟨t, hentered, hrest⟩ := foldlM_cons_some.mp h
    have hstep := enter_reachStep hfirst (hkey.mono (subset_foldl_reachStep _ requested)) hS hseen hentered
    exact ih hkey (hS.reachStep hfirst r) hstep hrest

/-- Where nothing is behind the nodes, the requests are seen alone. -/
theorem mem_reach_nil (requested : List α) (S : Set α) :
    q ∈ requested.foldl (reachStep (fun _ => []) next) S ↔ q ∈ S ∨ q ∈ requested := by
  induction requested generalizing S with
  | nil => simp
  | cons r requested ih =>
    have hstep : q ∈ reachStep (fun _ => []) next S r ↔ q ∈ S ∨ q = r := by
      simp only [reachStep, Set.mem_ofPred_eq, List.not_mem_nil, false_and, exists_false, or_false]
      refine ⟨fun h => h.imp_right And.right, fun h => h.elim .inl fun heq => ?_⟩
      by_cases hr : r ∈ S
      · exact .inl (heq ▸ hr)
      · exact .inr ⟨hr, heq⟩
    rw [List.foldl_cons, ih, hstep, List.mem_cons, or_assoc]

end Requests

end DepthFirst
