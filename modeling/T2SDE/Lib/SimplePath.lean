import Mathlib.Data.List.Perm.Subperm

namespace SimplePath

variable {α β : Type}

/-- One list behind the other, unless one of them is missing. -/
def collect : List (Option (List β)) → Option (List β)
  | [] => some []
  | o :: os => o.bind fun xs => (collect os).map (xs ++ ·)

/-- What is collected of lists without repetition that have nothing in common. -/
theorem collect_spec {ys : List α} {f : α → Option (List β)} {P : α → β → Prop}
    (hf : ∀ y ∈ ys, ∃ ps, f y = some ps ∧ ps.Nodup ∧ ∀ p, p ∈ ps ↔ P y p) (hys : ys.Nodup)
    (honce : ∀ y z p, P y p → P z p → y = z) :
    ∃ ps, collect (ys.map f) = some ps ∧ ps.Nodup ∧ ∀ p, p ∈ ps ↔ ∃ y ∈ ys, P y p := by
  induction ys with
  | nil => exact ⟨[], rfl, List.nodup_nil, fun p => by simp⟩
  | cons y ys ih =>
    rw [List.forall_mem_cons] at hf
    rw [List.nodup_cons] at hys
    obtain ⟨ps, hps, hnodup, hmem⟩ := hf.1
    obtain ⟨qs, hqs, hnodup', hmem'⟩ := ih hf.2 hys.2
    refine ⟨ps ++ qs, ?_, List.nodup_append.mpr ⟨hnodup, hnodup', ?_⟩, fun p => ?_⟩
    · rw [List.map_cons, collect, hps, hqs]
      rfl
    · rintro p hp q hq rfl
      obtain ⟨z, hz, hzp⟩ := (hmem' p).mp hq
      rw [honce y z p ((hmem p).mp hp) hzp] at hys
      exact hys.1 hz
    · rw [List.mem_append, hmem, hmem', List.exists_mem_cons_iff]

structure Simple (next : α → List α) (path : List α) (x : α) (p : List α) : Prop where
  steps : ∃ rest, p = path ++ x :: rest ∧ (x :: rest).IsChain fun a b => b ∈ next a
  once : p.Nodup

variable {next : α → List α} {path p : List α} {x y : α}

theorem snoc_append (path : List α) (x : α) (rest : List α) : path ++ x :: rest = path ++ [x] ++ rest := by
  rw [List.append_assoc, List.singleton_append]

/-- A path ends where it is, or goes on with an element that it has not met. -/
theorem simple_iff (hpath : (path ++ [x]).Nodup) : Simple next path x p ↔
    p = path ++ [x] ∨ ∃ y ∈ next x, y ∉ path ++ [x] ∧ Simple next (path ++ [x]) y p := by
  constructor
  · rintro ⟨⟨rest, rfl, hchain⟩, honce⟩
    cases rest with
    | nil => exact .inl rfl
    | cons y rest =>
      rw [List.isChain_cons_cons] at hchain
      rw [snoc_append] at honce ⊢
      refine .inr ⟨y, hchain.1, fun hmem => ?_, ⟨rest, rfl, hchain.2⟩, honce⟩
      exact (List.nodup_append.mp honce).2.2 y hmem y List.mem_cons_self rfl
  · rintro (rfl | ⟨y, hy, -, ⟨rest, rfl, hchain⟩, honce⟩)
    · exact ⟨⟨[], rfl, .singleton x⟩, hpath⟩
    · exact ⟨⟨y :: rest, (snoc_append path x _).symm, .cons_cons hy hchain⟩, honce⟩

variable [DecidableEq α]

/-- The paths from an element on that meet nothing twice, with what was met before it. -/
def walk (next : α → List α) : Nat → List α → α → Option (List (List α))
  | 0, _, _ => none
  | fuel + 1, path, x =>
    (collect ((next x).map fun y => if y ∈ path ++ [x] then some [] else walk next fuel (path ++ [x]) y)).map
      fun paths => (path ++ [x]) :: paths

/-- Among finitely many elements the walk ends, and what it finds are the simple paths, each once. -/
theorem walk_spec {all : List α} (hall : ∀ x, ∀ y ∈ next x, y ∈ all) (hnext : ∀ x, (next x).Nodup)
    (fuel : Nat)
    (hpath : (path ++ [x]).Nodup) (hsub : path ++ [x] ⊆ all) (hfuel : all.length < fuel + path.length) :
    ∃ ps, walk next fuel path x = some ps ∧ ps.Nodup ∧ ∀ p, p ∈ ps ↔ Simple next path x p := by
  have hlen := (hpath.subperm hsub).length_le
  rw [List.length_append, List.length_singleton] at hlen
  induction fuel generalizing path x with
  | zero => omega
  | succ fuel ih =>
    have hfound : ∀ y ∈ next x, ∃ ps,
      (if y ∈ path ++ [x] then some [] else walk next fuel (path ++ [x]) y) = some ps ∧
        ps.Nodup ∧ ∀ p, p ∈ ps ↔ y ∉ path ++ [x] ∧ Simple next (path ++ [x]) y p := by
      intro y hy
      by_cases hmem : y ∈ path ++ [x]
      · exact ⟨[], if_pos hmem, List.nodup_nil, fun p => iff_of_false List.not_mem_nil fun h => h.1 hmem⟩
      · have honce : (path ++ [x] ++ [y]).Nodup := by
          refine List.nodup_append.mpr ⟨hpath, List.nodup_cons.mpr ⟨List.not_mem_nil, List.nodup_nil⟩, ?_⟩
          rintro a ha b hb rfl
          rw [List.mem_singleton.mp hb] at ha
          exact hmem ha
        have hmore : path ++ [x] ++ [y] ⊆ all := by
          refine List.append_subset.mpr ⟨hsub, fun a ha => ?_⟩
          rw [List.mem_singleton.mp ha]
          exact hall x y hy
        have hbound := (honce.subperm hmore).length_le
        rw [List.length_append, List.length_singleton] at hbound
        have hlength : (path ++ [x]).length = path.length + 1 := List.length_append
        obtain ⟨ps, hps, hnodup, hspec⟩ := ih honce hmore (by omega) (by omega)
        refine ⟨ps, (if_neg hmem).trans hps, hnodup, fun p => ?_⟩
        rw [hspec, and_iff_right hmem]
    have hdistinct : ∀ y z p, y ∉ path ++ [x] ∧ Simple next (path ++ [x]) y p →
        z ∉ path ++ [x] ∧ Simple next (path ++ [x]) z p → y = z := by
      rintro y z p ⟨-, ⟨rest, rfl, -⟩, -⟩ ⟨-, ⟨rest', heq, -⟩, -⟩
      exact (List.cons.inj (List.append_cancel_left heq)).1
    obtain ⟨ps, hps, hnodup, hspec⟩ := collect_spec hfound (hnext x) hdistinct
    refine ⟨(path ++ [x]) :: ps, ?_, List.nodup_cons.mpr ⟨fun hmem => ?_, hnodup⟩, fun p => ?_⟩
    · rw [walk, hps]
      rfl
    · obtain ⟨y, -, -, ⟨rest, heq, -⟩, -⟩ := (hspec _).mp hmem
      have hlength := congrArg List.length heq
      have hlonger : (path ++ [x] ++ y :: rest).length = (path ++ [x]).length + (rest.length + 1) :=
        List.length_append
      omega
    · rw [List.mem_cons, hspec, simple_iff hpath]

end SimplePath
