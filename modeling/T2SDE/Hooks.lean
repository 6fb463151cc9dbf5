import T2SDE.Lib.LuaTable

namespace T2SDE.Hooks

open Function LuaTable

variable {F : Type}

/-- What can be added to a hook; `loadstring` gives no function for a chunk that does not compile,
and a table stands for its values as `pairs` delivers them. -/
inductive Data (F : Type)
  | func (f : F)
  | string (chunk : Option F)
  | table (values : List (Data F))
  | other

mutual
/-- `__hook.add`: the functions of the hook afterwards, and whether there was no error. -/
def addData (hooks : List F) : Data F → List F × Bool
  | .func f => (hooks ++ [f], true)
  | .string chunk => (hooks ++ chunk.toList, true)
  | .table values => addAll hooks values
  | .other => (hooks, false)

def addAll (hooks : List F) : List (Data F) → List F × Bool
  | [] => (hooks, true)
  | d :: ds => if (addData hooks d).2 then addAll (addData hooks d).1 ds else addData hooks d
end

/-- The table `hook`: `hook.new` returns it itself, so it is every object. -/
structure State (F : Type) where
  level : Table (List F)
  objects : Nat

inductive Op (F : Type)
  | add (data : Data F)
  | set (data : Data F)
  | clear

/-- What a script does; `len` is the length that is reported for the level table if a level is
created, `keys` and `order` are what `pairs` delivers. -/
inductive Action (F : Type)
  | call
  | new
  | level (object pos len : Nat) (op : Op F)
  | add (object len : Nat) (data : Data F)
  | set (object len : Nat) (data : Data F)
  | clear (object : Nat)
  | run (object : Nat) (keys : List Nat) (order : Nat → List F)

/-- What a step leaves, the functions that it has run, and whether it was an error. -/
structure Outcome (F : Type) where
  state : State F
  executed : List F := []
  failed : Bool := false

/-- The clamped position. -/
def clamp (pos : Nat) : Nat := if pos < 1 then 1 else if pos > 9 then 9 else pos

/-- `meta.__index` -/
def index (s : State F) (pos len : Nat) : State F :=
  if (s.level (clamp pos)).isSome then s
  else { s with level := LuaTable.insert s.level len (clamp pos) [] }

/-- An operation on the functions of one level. -/
def Op.apply (hooks : List F) : Op F → List F × Bool
  | .add data => addData hooks data
  | .set data => addData [] data
  | .clear => ([], true)

def onLevel (s : State F) (pos len : Nat) (op : Op F) : Outcome F :=
  let s := index s pos len
  let done := op.apply ((s.level (clamp pos)).getD [])
  { state := { s with level := update s.level (clamp pos) (some done.1) }, failed := !done.2 }

/-- `hook:clear` -/
def clearAll (s : State F) : State F := { s with level := fun k => (s.level k).map fun _ => [] }

def step (s : State F) : Action F → Outcome F
  -- the metatable that `hook.new` sets has no `__call`
  | .call => if s.objects = 0 then { state := { s with objects := 1 } } else { state := s, failed := true }
  | .new => { state := { s with objects := s.objects + 1 } }
  | .level _ pos len op => onLevel s pos len op
  | .add _ len data => onLevel s 5 len (.add data)
  | .set _ len data => onLevel (clearAll s) 5 len (.set data)
  | .clear _ => { state := clearAll s }
  | .run _ keys order => { state := s, executed := keys.flatMap order }

section Registry

/-- What the scripts are promised: every object has its own functions at each level. -/
abbrev Registry (F : Type) := Nat → Nat → List F

/-- The functions that data stands for. -/
def Data.functions (data : Data F) : List F := (addData [] data).1

def Op.registered (fs : List F) : Op F → List F
  | .add data => fs ++ data.functions
  | .set data => data.functions
  | .clear => []

def Registry.step (r : Registry F) : Action F → Registry F
  | .call => r
  | .new => r
  | .level object pos _ op => update r object (update (r object) pos (op.registered (r object pos)))
  | .add object _ data => update r object (update (r object) 5 (r object 5 ++ data.functions))
  | .set object _ data => update r object (update (fun _ => []) 5 data.functions)
  | .clear object => update r object fun _ => []
  | .run _ _ _ => r

/-- A step on an object that was created and on levels 1 to 9, with lengths and orders that Lua may
deliver. -/
def Possible (s : State F) : Action F → Prop
  | .call => True
  | .new => True
  | .level object pos len _ => object < s.objects ∧ 1 ≤ pos ∧ pos ≤ 9 ∧ IsBorder s.level len
  | .add object len _ => object < s.objects ∧ IsBorder s.level len
  | .set object len _ => object < s.objects ∧ IsBorder s.level len
  | .clear object => object < s.objects
  | .run object keys order =>
    object < s.objects ∧ Enumerates s.level keys ∧ ∀ k fs, s.level k = some fs → (order k).Perm fs

/-- One object only; no level is created at or below the reported length; `pairs` delivers keys in
ascending order. -/
def Orderly (s : State F) : Action F → Prop
  | .call => s.objects = 0
  | .new => s.objects = 0
  | .level _ pos len _ => (s.level pos).isSome = true ∨ len < pos
  | .add _ len _ => (s.level 5).isSome = true ∨ len < 5
  | .set _ len _ => (s.level 5).isSome = true ∨ len < 5
  | .clear _ => True
  | .run _ keys order => keys.Pairwise (· < ·) ∧ ∀ k fs, s.level k = some fs → order k = fs

/-- A run of the scripts with what they are promised. -/
inductive Run (good : State F → Action F → Prop) : State F → Registry F → Prop
  | start : Run good { level := fun _ => none, objects := 0 } fun _ _ => []
  | next {s : State F} {r : Registry F} {a : Action F} :
    Run good s r → Possible s a → good s a → Run good (step s a).state (r.step a)

mutual
theorem addData_append (hooks : List F) :
    ∀ d, addData hooks d = (hooks ++ (addData [] d).1, (addData [] d).2)
  | .func f => by rw [addData, addData, List.nil_append]
  | .string chunk => by rw [addData, addData, List.nil_append]
  | .table values => by
    rw [addData, addData]
    exact addAll_append hooks values
  | .other => by rw [addData, addData, List.append_nil]

theorem addAll_append (hooks : List F) :
    ∀ ds, addAll hooks ds = (hooks ++ (addAll [] ds).1, (addAll [] ds).2)
  | [] => by rw [addAll, addAll, List.append_nil]
  | d :: ds => by
    rw [addAll, addAll, addData_append hooks d]
    dsimp only
    split
    · rw [addAll_append (hooks ++ (addData [] d).1) ds, addAll_append (addData [] d).1 ds, List.append_assoc]
    · rfl
end

theorem apply_fst (op : Op F) (fs : List F) : (op.apply fs).1 = op.registered fs := by
  cases op with
  | add data =>
    change (addData fs data).1 = _
    rw [addData_append]
    rfl
  | set data => rfl
  | clear => rfl

theorem clamp_of_level {pos : Nat} (h1 : 1 ≤ pos) (h9 : pos ≤ 9) : clamp pos = pos := by
  rw [clamp, if_neg (by omega), if_neg (by omega)]

/-- The one object has what the registry promises it, on levels 1 to 9. -/
structure Faithful (s : State F) (r : Registry F) : Prop where
  single : s.objects ≤ 1
  levels : ∀ n, (s.level n).getD [] = r 0 n
  bound : ∀ n, (s.level n).isSome = true → 1 ≤ n ∧ n ≤ 9

/-- The level is there afterwards, and all levels have the functions they had. -/
theorem index_level {s : State F} {pos len : Nat} (h1 : 1 ≤ pos) (h9 : pos ≤ 9)
    (h : (s.level pos).isSome = true ∨ len < pos) (n : Nat) :
    ((index s pos len).level n).getD [] = (s.level n).getD [] ∧
      (((index s pos len).level n).isSome = true → (s.level n).isSome = true ∨ n = pos) := by
  rw [index, clamp_of_level h1 h9]
  split
  next => exact ⟨rfl, .inl⟩
  next hnone =>
    have hlt : len < pos := h.resolve_left hnone
    rw [insert_of_lt hlt]
    by_cases hn : n = pos
    · subst hn
      have hempty : s.level n = none := by simpa using hnone
      simp [hempty]
    · simp [hn]

theorem onLevel_level (s : State F) (pos len : Nat) (op : Op F) :
    (onLevel s pos len op).state.level = update (index s pos len).level (clamp pos)
      (some (op.apply (((index s pos len).level (clamp pos)).getD [])).1) := rfl

theorem Faithful.onLevel {s : State F} {r : Registry F} (h : Faithful s r) {pos len : Nat} (op : Op F)
    (h1 : 1 ≤ pos) (h9 : pos ≤ 9) (horder : (s.level pos).isSome = true ∨ len < pos) :
    Faithful (onLevel s pos len op).state (update r 0 (update (r 0) pos (op.registered (r 0 pos)))) := by
  have hindex := index_level h1 h9 horder
  have hsingle : (index s pos len).objects = s.objects := by
    rw [index]
    split <;> rfl
  refine ⟨?_, ?_, ?_⟩
  · exact hsingle ▸ h.single
  · intro n
    rw [onLevel_level, clamp_of_level h1 h9, update_self]
    by_cases hn : n = pos
    · subst hn
      rw [update_self, update_self, Option.getD_some, apply_fst, (hindex n).1, h.levels]
    · rw [update_of_ne hn, update_of_ne hn, (hindex n).1, h.levels]
  · intro n hn
    rw [onLevel_level, clamp_of_level h1 h9] at hn
    by_cases hp : n = pos
    · exact hp ▸ ⟨h1, h9⟩
    · rw [update_of_ne hp] at hn
      rcases (hindex n).2 hn with hs | hs
      · exact h.bound n hs
      · exact absurd hs hp

theorem Faithful.clearAll {s : State F} {r : Registry F} (h : Faithful s r) :
    Faithful (clearAll s) (update r 0 fun _ => []) := by
  refine ⟨h.single, ?_, ?_⟩
  · intro n
    rw [update_self]
    change ((s.level n).map fun _ => []).getD [] = []
    cases s.level n <;> rfl
  · intro n hn
    exact h.bound n (by simpa [Hooks.clearAll] using hn)

theorem Faithful.step {s : State F} {r : Registry F} (h : Faithful s r) {a : Action F}
    (hpossible : Possible s a) (horderly : Orderly s a) : Faithful (step s a).state (r.step a) := by
  have hfirst {object : Nat} (ho : object < s.objects) : object = 0 := by
    have hs := h.single
    omega
  cases a with
  | call =>
    change s.objects = 0 at horderly
    rw [Hooks.step, if_pos horderly]
    exact ⟨le_refl 1, h.levels, h.bound⟩
  | new =>
    change s.objects = 0 at horderly
    exact ⟨by simp [Hooks.step, horderly], h.levels, h.bound⟩
  | level object pos len op =>
    obtain ⟨ho, h1, h9, _⟩ := hpossible
    rw [hfirst ho]
    exact h.onLevel op h1 h9 horderly
  | add object len data =>
    rw [hfirst hpossible.1]
    exact h.onLevel (.add data) (by omega) (by omega) horderly
  | set object len data =>
    rw [hfirst hpossible.1]
    change (s.level 5).isSome = true ∨ len < 5 at horderly
    have hlevel : ((Hooks.clearAll s).level 5).isSome = true ∨ len < 5 := by
      simpa [Hooks.clearAll] using horderly
    have hset := h.clearAll.onLevel (.set data) (by omega) (by omega) hlevel
    rw [update_self, update_idem] at hset
    exact hset
  | clear object =>
    change object < s.objects at hpossible
    rw [hfirst hpossible]
    exact h.clearAll
  | run object keys order => exact h

theorem Run.faithful {s : State F} {r : Registry F} (h : Run Orderly s r) : Faithful s r := by
  induction h with
  | start => exact ⟨by simp, by simp, by simp⟩
  | next _ hpossible horderly ih => exact ih.step hpossible horderly

/-- In an orderly run every object has the functions it is promised, and run executes them, levels
in ascending order. -/
theorem hooks_registry {s : State F} {r : Registry F} (h : Run Orderly s r) :
    (∀ object, object < s.objects → ∀ n, 1 ≤ n → n ≤ 9 → (s.level n).getD [] = r object n) ∧
    ∀ object keys order, Possible s (.run object keys order) → Orderly s (.run object keys order) →
      (step s (.run object keys order)).executed = (List.range' 1 9).flatMap (r object) := by
  have hfaithful := h.faithful
  have hfirst {object : Nat} (ho : object < s.objects) : object = 0 := by
    have hs := hfaithful.single
    omega
  refine ⟨?_, ?_⟩
  · intro object ho n _ _
    rw [hfirst ho]
    exact hfaithful.levels n
  · intro object keys order hpossible horderly
    obtain ⟨ho, hkeys, _⟩ := hpossible
    obtain ⟨hsorted, hsame⟩ := horderly
    have horder : keys.flatMap order = keys.flatMap (r object) := by
      refine List.flatMap_congr fun k hk => ?_
      obtain ⟨fs, hfs⟩ := Option.isSome_iff_exists.mp ((hkeys.2 k).mp hk)
      rw [hsame k fs hfs, hfirst ho, ← hfaithful.levels, hfs]
      rfl
    have hall : keys = (List.range 10).filter fun k => (s.level k).isSome :=
      hkeys.ascending hsorted fun k hk => by
        have hk := hfaithful.bound k hk
        omega
    have hnone (k : Nat) (hk : (s.level k).isSome = false) : r object k = [] := by
      have hempty : s.level k = none := by simpa using hk
      rw [hfirst ho, ← hfaithful.levels, hempty]
      rfl
    have hzero : r object 0 = [] := by
      refine hnone 0 (Bool.eq_false_iff.mpr fun hk => ?_)
      have hk := hfaithful.bound 0 hk
      omega
    change keys.flatMap order = _
    rw [horder, hall, flatMap_filter hnone]
    change r object 0 ++ (List.range' 1 9).flatMap (r object) = _
    rw [hzero, List.nil_append]

theorem hooks_registry_sample :
    ∃ (s : State Nat) (r : Registry Nat) (order : Nat → List Nat),
      s.level 1 = some [20] ∧ s.level 5 = some [10] ∧
        (step s (.run 0 [1, 5] order)).executed = (List.range' 1 9).flatMap (r 0) := by
  have hnew : Run Orderly _ _ := (Run.start : Run (Orderly (F := Nat)) _ _).next (a := .call) trivial rfl
  have hfive :=
    hnew.next (a := .level 0 5 0 (.add (.func 10))) ⟨by decide, by decide, by decide, .inl rfl, rfl⟩
    (.inr (by decide))
  have hone := hfive.next (a := .level 0 1 0 (.add (.func 20)))
    ⟨by decide, by decide, by decide, .inl rfl, rfl⟩
    (.inr (by decide))
  have hlevel (k : Nat) : State.level _ k = if k = 1 then some [20] else if k = 5 then some [10] else none :=
    (congrFun (onLevel_level (onLevel { level := fun _ => none, objects := 1 } 5 0
      (.add (.func 10))).state 1 0
      (.add (.func 20))) k).trans (by
        by_cases h1 : k = 1 <;> by_cases h5 : k = 5 <;>
          simp [onLevel, index, clamp, LuaTable.insert, moveUp, Op.apply, addData, update_apply, h1, h5])
  refine ⟨_, _, fun k => if k = 1 then [20] else if k = 5 then [10] else [], rfl, rfl,
    (hooks_registry hone).2 0 [1, 5] _ ⟨by decide, ⟨by decide, fun k => ?_⟩, fun k fs hk => ?_⟩
    ⟨by decide, fun k fs hk => ?_⟩⟩
  · refine Iff.trans ?_
      (iff_of_eq (congrArg (fun fs : Option (List Nat) => fs.isSome = true) (hlevel k).symm))
    by_cases h1 : k = 1 <;> by_cases h5 : k = 5 <;> simp [h1, h5]
  · have hk := (hlevel k).symm.trans hk
    split_ifs at hk <;> simp_all
  · have hk := (hlevel k).symm.trans hk
    split_ifs at hk <;> simp_all

/-- Two objects are one table, and a second `hook()` is an error; a level that is created below
others moves them up; and the levels may run in another order. -/
theorem hooks_share_and_move :
    (∃ s r, Run (fun (_ : State Nat) _ => True) s r ∧ s.objects = 2 ∧ s.level 5 = some [10] ∧ r 1 5 = [] ∧
      (step s .call).failed = true) ∧
    (∃ s r, Run (fun (_ : State Nat) _ => True) s r ∧ s.level 4 = none ∧ s.level 5 = some [4] ∧ r 0 4 = [4]) ∧
    (∃ s r, Run (fun (_ : State Nat) _ => True) s r ∧
      ∃ order, Possible s (.run 0 [5, 3] order) ∧ (step s (.run 0 [5, 3] order)).executed = [5, 3] ∧
        (List.range' 1 9).flatMap (r 0) = [3, 5]) := by
  have hcall : Run (fun (_ : State Nat) _ => True) _ _ := Run.start.next (a := .call) trivial trivial
  have hadd {s : State Nat} {r : Registry Nat} (h : Run (fun _ _ => True) s r) (pos len f : Nat)
      (hpossible : Possible s (.level 0 pos len (.add (.func f)))) :
      Run (fun _ _ => True) _ _ := h.next hpossible trivial
  have htwo := hadd (hcall.next (a := .new) trivial trivial) 5 0 10
    ⟨by decide, by decide, by decide, .inl rfl, rfl⟩
  have hfour := hadd hcall 4 0 4 ⟨by decide, by decide, by decide, .inl rfl, rfl⟩
  have hfive := hadd hfour 5 0 5 ⟨by decide, by decide, by decide, .inl rfl, rfl⟩
  have hsix := hadd hfive 6 0 6 ⟨by decide, by decide, by decide, .inl rfl, rfl⟩
  have hseven := hadd hsix 7 0 7 ⟨by decide, by decide, by decide, .inl rfl, rfl⟩
  have height := hadd hseven 8 0 8 ⟨by decide, by decide, by decide, .inl rfl, rfl⟩
  have hmoved := hadd height 1 8 1 ⟨by decide, by decide, by decide, .inr rfl, rfl⟩
  have hthree := hadd (hadd hcall 5 0 5 ⟨by decide, by decide, by decide, .inl rfl, rfl⟩) 3 0 3
    ⟨by decide, by decide, by decide, .inl rfl, rfl⟩
  have hlevel (k : Nat) : State.level _ k = if k = 3 then some [3] else if k = 5 then some [5] else none :=
    (congrFun (onLevel_level (onLevel { level := fun _ => none, objects := 1 } 5 0 (.add (.func 5))).state 3 0
      (.add (.func 3))) k).trans (by
        by_cases h3 : k = 3 <;> by_cases h5 : k = 5 <;>
          simp [onLevel, index, clamp, LuaTable.insert, moveUp, Op.apply, addData, update_apply, h3, h5])
  refine ⟨⟨_, _, htwo, rfl, rfl, rfl, rfl⟩, ⟨_, _, hmoved, rfl, rfl, rfl⟩, _, _, hthree, fun k => [k],
    ⟨by decide, ⟨by decide, fun k => ?_⟩, fun k fs hk => ?_⟩, rfl, rfl⟩
  · refine Iff.trans ?_
      (iff_of_eq (congrArg (fun fs : Option (List Nat) => fs.isSome = true) (hlevel k).symm))
    by_cases h3 : k = 3 <;> by_cases h5 : k = 5 <;> simp [h3, h5]
  · have hk := (hlevel k).symm.trans hk
    split_ifs at hk <;> simp_all

end Registry

end T2SDE.Hooks
