import T2SDE.Lib.Files

namespace Disk

open Text

/-- The command takes a file away from its path. -/
def Op.TakesAway (path : Str) : Op → Prop
  | write _ _ | link _ _ => False
  | move src dst => src = path ∧ dst ≠ path
  | remove p => p = path

instance (path : Str) : (op : Op) → Decidable (op.Touches path)
  | .write p _ | .remove p => inferInstanceAs (Decidable (p = path))
  | .move src dst => inferInstanceAs (Decidable (src = path ∨ dst = path))
  | .link _ dst => inferInstanceAs (Decidable (dst = path))

instance (path : Str) : (op : Op) → Decidable (op.TakesAway path)
  | .write _ _ | .link _ _ => inferInstanceAs (Decidable False)
  | .move src dst => inferInstanceAs (Decidable (src = path ∧ dst ≠ path))
  | .remove p => inferInstanceAs (Decidable (p = path))

/-- An interruption comes between a command that changes a file and one that takes it away again. -/
def Exposed (path : Str) (ops : List Op) (k : Nat) : Prop :=
  (∃ op ∈ ops.take k, op.Touches path) ∧ ∃ op ∈ ops.drop k, op.TakesAway path

instance (path : Str) (ops : List Op) (k : Nat) : Decidable (Exposed path ops k) :=
  inferInstanceAs (Decidable ((∃ op ∈ ops.take k, op.Touches path) ∧ ∃ op ∈ ops.drop k, op.TakesAway path))

/-- An interruption leaves neither an exposed file nor a part of one. -/
def Quiet (path : Str) (ops : List Op) (k n : Nat) : Prop :=
  match ops[k]? with
  | some (.write p data) =>
    if p = path then n = 0 ∨ data.length ≤ n ∧ ¬Exposed path ops (k + 1) else ¬Exposed path ops k
  | _ => ¬Exposed path ops k

/-- A file is good whenever it is not exposed, or it is as bad as it is at the end. -/
def Pending (path : Str) (Good : Option Data → Prop) (ops : List Op) (t : Tree) : Prop :=
  ∀ k ≤ ops.length, Good (runAll (ops.take k) t path) ∨ Exposed path ops k ∨
    runAll (ops.take k) t path = runAll ops t path ∧ ∃ op ∈ ops.take k, op.Touches path

variable {path : Str} {Good : Option Data → Prop} {ops : List Op} {op : Op} {t : Tree} {k n : Nat}

theorem runAll_snoc (ops : List Op) (op : Op) (t : Tree) :
    runAll (ops ++ [op]) t = op.run (runAll ops t) := by
  rw [runAll_append]
  rfl

theorem run_of_takesAway (h : op.TakesAway path) : op.run t path = none := by
  cases op with
  | write p data => exact h.elim
  | link src dst => exact h.elim
  | move src dst =>
    obtain ⟨rfl, hne⟩ := h
    cases hsrc : t src with
    | none => simp only [Op.run, hsrc]
    | some data =>
      simp only [Op.run, hsrc]
      rw [Function.update_of_ne hne.symm, Function.update_self]
  | remove p =>
    obtain rfl := h
    exact Function.update_self _ _ _

theorem Exposed.append (h : Exposed path ops k) (op : Op) : Exposed path (ops ++ [op]) k := by
  obtain ⟨⟨first, hfirst, htouch⟩, last, hlast, htake⟩ := h
  have hk : k ≤ ops.length := by
    by_contra hgt
    rw [List.drop_eq_nil_of_le (by omega)] at hlast
    cases hlast
  refine ⟨⟨first, ?_, htouch⟩, last, ?_, htake⟩
  · rwa [List.take_append_of_le_length hk]
  · rw [List.drop_append_of_le_length hk]
    exact List.mem_append_left _ hlast

theorem Pending.nil (h : Good (t path)) : Pending path Good [] t := by
  intro k _
  rw [List.take_nil]
  exact .inl h

/-- The states of a longer run are those of the shorter one and the last. -/
theorem Pending.snoc (h : Pending path Good ops t)
    (hold : ∀ k ≤ ops.length, (∃ op ∈ ops.take k, op.Touches path) →
      runAll (ops.take k) t path = runAll ops t path → Good (runAll (ops.take k) t path) ∨
        Exposed path (ops ++ [op]) k ∨ runAll ops t path = op.run (runAll ops t) path)
    (hnew : Good (op.run (runAll ops t) path) ∨ ∃ o ∈ ops ++ [op], o.Touches path) :
    Pending path Good (ops ++ [op]) t := by
  intro k hk
  rcases Nat.lt_or_ge ops.length k with hlt | hle
  · have hlen : (ops ++ [op]).length ≤ k := by simp; omega
    rw [List.take_of_length_le hlen]
    rcases hnew with hgood | htouch
    · exact .inl (by rwa [runAll_snoc])
    · exact .inr (.inr ⟨rfl, htouch⟩)
  · rw [List.take_append_of_le_length hle, runAll_snoc]
    rcases h k hle with hgood | hexposed | ⟨heq, htouch⟩
    · exact .inl hgood
    · exact .inr (.inl (hexposed.append op))
    · rcases hold k hle htouch heq with hgood | hexposed | hsame
      · exact .inl hgood
      · exact .inr (.inl hexposed)
      · exact .inr (.inr ⟨heq.trans hsame, htouch⟩)

/-- A command that leaves the file alone. -/
theorem Pending.other (h : Pending path Good ops t) (hne : ¬op.Touches path) :
    Pending path Good (ops ++ [op]) t := by
  have hsame : op.run (runAll ops t) path = runAll ops t path := run_of_not_touches hne
  refine h.snoc (fun _ _ _ _ => .inr (.inr hsame.symm)) ?_
  rw [hsame]
  rcases h ops.length le_rfl with hgood | ⟨⟨o, ho, htouch⟩, _⟩ | ⟨_, o, ho, htouch⟩
  · exact .inl (by rwa [List.take_length] at hgood)
  · exact .inr ⟨o, List.mem_append_left _ (List.mem_of_mem_take ho), htouch⟩
  · exact .inr ⟨o, List.mem_append_left _ (List.mem_of_mem_take ho), htouch⟩

/-- A command that changes a good file. -/
theorem Pending.touch (h : Pending path Good ops t) (hgood : Good (runAll ops t path)) (op : Op) :
    Pending path Good (ops ++ [op]) t := by
  by_cases htouch : op.Touches path
  · refine h.snoc (fun k _ _ heq => .inl (heq ▸ hgood)) ?_
    exact .inr ⟨op, List.mem_append_right _ (List.mem_singleton_self op), htouch⟩
  · exact h.other htouch

/-- A command that takes the file away, good or bad. -/
theorem Pending.takeAway (h : Pending path Good ops t) (htake : op.TakesAway path) (hnone : Good none) :
    Pending path Good (ops ++ [op]) t := by
  refine h.snoc (fun k hk htouch _ => .inr (.inl ⟨?_, op, ?_, htake⟩)) (.inl ?_)
  · rwa [List.take_append_of_le_length hk]
  · rw [List.drop_append_of_le_length hk]
    exact List.mem_append_right _ (List.mem_singleton_self op)
  · rwa [run_of_takesAway htake]

/-- Where the file is good at the end, it is good at every moment at which it is not exposed. -/
theorem Pending.good (h : Pending path Good ops t) (hgood : Good (runAll ops t path))
    (hk : ¬Exposed path ops k) : Good (runAll (ops.take k) t path) := by
  rcases Nat.le_total k ops.length with hle | hle
  · rcases h k hle with hk' | hexposed | ⟨heq, _⟩
    · exact hk'
    · exact absurd hexposed hk
    · rwa [heq]
  · rwa [List.take_of_length_le hle]

/-- A quiet interruption leaves a good file, if an empty one is good. -/
theorem Pending.crash (h : Pending path Good ops t) (hgood : Good (runAll ops t path))
    (hempty : Good (some [])) (hquiet : Quiet path ops k n) : Good (crash ops k n t path) := by
  unfold Quiet at hquiet
  unfold Disk.crash
  cases hop : ops[k]? with
  | none =>
    rw [List.getElem?_eq_none_iff] at hop
    rwa [List.drop_eq_nil_of_le hop]
  | some op =>
    obtain ⟨hlt, rfl⟩ := List.getElem?_eq_some_iff.mp hop
    rw [hop] at hquiet
    rw [List.drop_eq_getElem_cons hlt]
    dsimp only
    have hfirst (hne : ¬Exposed path ops k) (hcut : ops[k].cut n (runAll (ops.take k) t) path =
        runAll (ops.take k) t path) : Good (ops[k].cut n (runAll (ops.take k) t) path) := by
      rw [hcut]
      exact h.good hgood hne
    cases hcase : ops[k] with
    | write p data =>
      rw [hcase] at hquiet hfirst
      dsimp only at hquiet
      split_ifs at hquiet with hp
      · subst hp
        rcases hquiet with rfl | ⟨hlen, hne⟩
        · simpa [Op.cut] using hempty
        · have hnext := h.good hgood hne
          rw [List.take_succ_eq_append_getElem hlt, runAll_snoc, hcase, run_write] at hnext
          simpa [Op.cut, List.take_of_length_le hlen] using hnext
      · exact hfirst hquiet (cut_of_not_touches hp)
    | move src dst => rw [hcase] at hquiet hfirst; exact hfirst hquiet rfl
    | link src dst => rw [hcase] at hquiet hfirst; exact hfirst hquiet rfl
    | remove p => rw [hcase] at hquiet hfirst; exact hfirst hquiet rfl

end Disk
