import T2SDE.ConfigCycle

namespace T2SDE.Config

open Text

/-- A configuration program in which every `expert_begin` has its `expert_end`. -/
inductive Blocks
  | done
  | item (i : Item) (rest : Blocks)
  | expert (body rest : Blocks)
  | cond (test : Env → Bool) (yes no rest : Blocks)

/-- The commands of the blocks, in front of other ones. -/
def Blocks.program : Blocks → Program → Program
  | .done, next => next
  | .item i rest, next => .item i (rest.program next)
  | .expert body rest, next => .expertBegin (body.program (.expertEnd (rest.program next)))
  | .cond test yes no rest, next => .cond test (yes.program .done) (no.program .done) (rest.program next)

/-- The name and the default that an item hands to `set_data`, and the shell at that point. -/
def Item.asks (s : Shell) : Item → Option (Str × Str × Shell)
  | .choice name default values => some (name, listedDefault default values, s.keepListed name values)
  | .bool name default => some (name, default, s)
  | .text name default => some (name, default, s)
  | .const _ _ => none

section Runs

variable (expand : Env → Str → Str)

def Blocks.run : Blocks → Shell → Shell
  | .done, s => s
  | .item i rest, s => rest.run (i.run expand s)
  | .expert body rest, s => rest.run (expertEnd (body.run (expertBegin s)))
  | .cond test yes no rest, s => rest.run (if test s.env then yes.run s else no.run s)

/-- The item is not in the menu, and without a preset its variable has the default. -/
def Hidden (name default : Str) (s : Shell) : Prop :=
  (setData expand name default s).menumode = 0 ∧
    (s.env (presetName name) = [] → (setData expand name default s).data = default)

/-- What is asked of an item at a depth of expert blocks. -/
structure Item.Placed (depth : Nat) (s : Shell) (i : Item) : Prop where
  expert : s.expert = depth
  hidden : ∀ name default t, i.asks s = some (name, default, t) → number (t.env expertName) = some 0 →
    (Hidden expand name default t ↔ 0 < depth)

/-- Along a run `expert` is the depth, and an `expert_end` sets it to what it was in front of its
`expert_begin`. -/
def Blocks.Faithful : Blocks → Nat → Shell → Prop
  | .done, depth, s => s.expert = depth
  | .item i rest, depth, s => i.Placed expand depth s ∧ rest.Faithful depth (i.run expand s)
  | .expert body rest, depth, s =>
    body.Faithful (depth + 1) (expertBegin s) ∧
    (expertEnd (body.run expand (expertBegin s))).expert = s.expert ∧
      rest.Faithful depth (expertEnd (body.run expand (expertBegin s)))
  | .cond test yes no rest, depth, s =>
    if test s.env then yes.Faithful depth s ∧ rest.Faithful depth (yes.run expand s)
    else no.Faithful depth s ∧ rest.Faithful depth (no.run expand s)

/-- The run comes to no expert block. -/
def Blocks.Unnested : Blocks → Shell → Prop
  | .done, _ => True
  | .item i rest, s => rest.Unnested (i.run expand s)
  | .expert _ _, _ => False
  | .cond test yes no rest, s =>
    if test s.env then yes.Unnested s ∧ rest.Unnested (yes.run expand s)
    else no.Unnested s ∧ rest.Unnested (no.run expand s)

variable {expand} {s t : Shell} {name default : Str}

theorem Blocks.run_program (b : Blocks) (next : Program) (s : Shell) :
    (b.program next).run expand s = next.run expand (b.run expand s) := by
  induction b generalizing next s with
  | done => rfl
  | item i rest ih => exact ih next _
  | expert body rest ihbody ihrest =>
    rw [Blocks.program, Program.run, ihbody, Program.run, ihrest]
    rfl
  | cond test yes no rest ihyes ihno ihrest =>
    rw [Blocks.program, Program.run, ihrest, ihyes, ihno]
    rfl

theorem Item.run_asks {i : Item} (h : i.asks s = some (name, default, t)) :
    i.run expand s = setData expand name default t ∧ t.expert = s.expert := by
  cases i with
  | choice n d values =>
    obtain ⟨rfl, rfl, rfl⟩ : n = name ∧ listedDefault d values = default ∧ s.keepListed n values = t := by
      simpa [Item.asks] using h
    exact ⟨choice_eq expand n d values s, keepListed_expert s n values⟩
  | bool n d =>
    obtain ⟨rfl, rfl, rfl⟩ : n = name ∧ d = default ∧ s = t := by simpa [Item.asks] using h
    exact ⟨rfl, rfl⟩
  | text n d =>
    obtain ⟨rfl, rfl, rfl⟩ : n = name ∧ d = default ∧ s = t := by simpa [Item.asks] using h
    exact ⟨rfl, rfl⟩
  | const n v => exact absurd h (by simp [Item.asks])

theorem setData_menumode (expand : Env → Str → Str) (name default : Str) (s : Shell) :
    (setData expand name default s).menumode =
      if s.env (presetName name) ≠ [] then if s.shown then 2 else 0 else if s.shown then 1 else 0 := rfl

theorem setData_hidden : (setData expand name default s).menumode = 0 ↔ s.shown = false := by
  rw [setData_menumode]
  cases s.shown with
  | false => simp
  | true => split <;> simp

/-- Without the expert setting an item is hidden exactly when the counter is not zero. -/
theorem hidden_iff (hsetting : number (s.env expertName) = some 0) :
    Hidden expand name default s ↔ s.expert ≠ 0 := by
  have hshown : s.shown = (s.expert == 0) := by
    rw [shown_eq, hsetting]
    rfl
  rw [Hidden, setData_hidden, hshown, beq_eq_false_iff_ne]
  refine and_iff_left_of_imp fun hne hpreset => ?_
  have hfalse : s.shown = false := hshown.trans (beq_false_of_ne hne)
  show s.choose expand name default = default
  rw [Shell.choose, if_neg (not_not.mpr hpreset), hfalse]
  rfl

theorem Item.placed {i : Item} {depth : Nat} (h : s.expert = depth) : i.Placed expand depth s := by
  refine ⟨h, fun name default t hasks hsetting => ?_⟩
  have hrun : i.run expand s = setData expand name default t ∧ t.expert = s.expert := Item.run_asks hasks
  rw [hidden_iff hsetting, hrun.2, h]
  omega

/-- A run without expert blocks leaves the counter at the depth. -/
theorem Blocks.Unnested.faithful {b : Blocks} {depth : Nat} (hb : b.Unnested expand s)
    (h : s.expert = depth) :
    b.Faithful expand depth s ∧ (b.run expand s).expert = depth := by
  induction b generalizing s with
  | done => exact ⟨h, h⟩
  | item i rest ih =>
    obtain ⟨hrest, hrun⟩ := ih hb ((item_expert expand i s).trans h)
    exact ⟨⟨Item.placed h, hrest⟩, hrun⟩
  | expert body rest => exact hb.elim
  | cond test yes no rest ihyes ihno ihrest =>
    rw [Blocks.Unnested] at hb
    rw [Blocks.Faithful, Blocks.run]
    split at hb
    next htest =>
      obtain ⟨hyes, hrun⟩ := ihyes hb.1 h
      obtain ⟨hrest, hlast⟩ := ihrest hb.2 hrun
      rw [if_pos htest, if_pos htest]
      exact ⟨⟨hyes, hrest⟩, hlast⟩
    next htest =>
      obtain ⟨hno, hrun⟩ := ihno hb.1 h
      obtain ⟨hrest, hlast⟩ := ihrest hb.2 hrun
      rw [if_neg htest, if_neg htest]
      exact ⟨⟨hno, hrest⟩, hlast⟩

end Runs

end T2SDE.Config
