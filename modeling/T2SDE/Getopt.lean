import Mathlib.Data.List.Induction
import Mathlib.Logic.Function.Basic
import T2SDE.Lib.Text

namespace T2SDE.Getopt

open Text

section Program

/-- What can be an entry of `opt`, with the numbers of the interpreter. -/
inductive Value (N : Type)
  | boolean (b : Bool)
  | string (s : Str)
  | number (n : N)
  | other (id : Nat)

/-- `tonumber` for strings and the addition of one. -/
structure Numbers (N : Type) where
  tonumber : Str → Option N
  succ : N → N

inductive Arg
  | none
  | required
  | optional
  deriving DecidableEq

/-- The flags that make a difference. -/
inductive Opt
  | none
  | number
  | incremental
  deriving DecidableEq

/-- A string or a list of options. -/
inductive Names
  | string (s : Str)
  | list (l : List Str)

structure Def (N : Type) where
  key : Str
  option : Names
  default : Option (Value N)
  argument : Arg
  flag : Opt

/-- How a call can end without options: with an error that is returned, with an error of the interpreter, or
never. -/
inductive Failure
  | returned (err : Str)
  | raised
  | unfinished

structure State (N : Type) where
  opt : Str → Option (Value N)
  args : Nat → Option Str
  i : Nat

variable {N : Type} (lua : Numbers N) (defs : List (Def N))

def Names.has : Names → Option Str → Bool
  | .string s, arg => some s == arg
  | .list l, arg => l.any fun s => some s == arg

def tonumber : Option (Value N) → Option N
  | some (.number n) => some n
  | some (.string s) => lua.tonumber s
  | _ => none

/-- An argument that begins with a dash. -/
def dash (arg : Str) : Bool := arg.head? == some '-'

def message (text : String) (arg : Option Str) : Str := text.toList ++ arg.getD [] ++ "'".toList

def Def.takes (d : Def N) : Bool := d.argument == .required || d.argument == .optional

/-- The end of the loop body: the value of the key is set, and the argument is removed. -/
def State.assign (s : State N) (key : Str) (val : Option (Value N)) : State N :=
  { s with opt := Function.update s.opt key val, args := Function.update s.args s.i none }

/-- The argument of an option, and the state behind it. -/
def takeArgument (s : State N) (d : Def N) (nextisopt : Bool) : State N × Option (Value N) :=
  if !nextisopt && d.takes then
    let s := { s with args := Function.update s.args s.i none, i := s.i + 1 }
    (s, (s.args s.i).map .string)
  else (s, some (.boolean true))

/-- The value that is assigned in the end, where the key had some value before. -/
def flagged (d : Def N) (old val : Option (Value N)) : Except Failure (Option (Value N)) :=
  match d.flag with
  | .none => .ok val
  | .number => .ok ((tonumber lua val).map .number)
  | .incremental => (tonumber lua old).elim (.error .raised) fun n => .ok (some (.number (lua.succ n)))

/-- The body of the loop over the definitions. -/
def process (s : State N) (d : Def N) : Except Failure (State N) :=
  if d.option.has (s.args s.i) = false then .ok s
  else
    let nextisopt := (s.args (s.i + 1)).any dash
    if nextisopt && d.argument == .required then
      .error (.returned (message "Missing option argument for `" (s.args s.i)))
    else
      let taken := takeArgument s d nextisopt
      match flagged lua d (taken.1.opt d.key) taken.2 with
      | .error e => .error e
      | .ok val => .ok (taken.1.assign d.key val)

def secondPass (nargs : Nat) : Nat → State N → Except Failure (State N)
  | 0, _ => .error .unfinished
  | fuel + 1, s =>
    match defs.foldlM (process lua) s with
    | .error e => .error e
    | .ok s => if s.i + 1 > nargs then .ok { s with i := s.i + 1 }
    else secondPass nargs fuel { s with i := s.i + 1 }

def thirdPass (args : Nat → Option Str) : List Nat → List Str → Except Failure (List Str)
  | [], arg => .ok arg
  | i :: is, arg =>
    match args i with
    | none => thirdPass args is arg
    | some a =>
      if dash a then .error (.returned (message "Unrecognized option `" (some a)))
      else thirdPass args is (arg ++ [a])

def defaults (defs : List (Def N)) : Str → Option (Value N) :=
  defs.foldl (fun opt d => if d.default.isSome then Function.update opt d.key d.default else opt) fun _ =>
    none

def getopt (args : List Str) : Except Failure ((Str → Option (Value N)) × List Str) :=
  match secondPass lua defs args.length (args.length + 1)
    ⟨defaults defs, fun i => if i = 0 then none else args[i - 1]?, 1⟩ with
  | .error e => .error e
  | .ok s =>
    match thirdPass s.args (List.range' 1 args.length) [] with
    | .error e => .error e
    | .ok arg => .ok (s.opt, arg)

end Program

section Purpose

variable {N : Type} (lua : Numbers N) (defs : List (Def N))

/-- What arguments are: an option, with its argument if it has one, or a positional argument. -/
inductive Item (N : Type)
  | option (d : Def N) (a : Str) (arg : Option Str)
  | positional (a : Str)

def Item.texts : Item N → List Str
  | .option _ a arg => a :: arg.toList
  | .positional a => [a]

/-- What the arguments are by the definitions. -/
def items : List Str → List (Item N)
  | [] => []
  | a :: rest =>
    match defs.find? fun d => d.option.has (some a) with
    | none => .positional a :: items rest
    | some d =>
      match rest with
      | [] => [.option d a none]
      | b :: behind =>
        if d.takes && !dash b then .option d a (some b) :: items behind
        else .option d a none :: items (b :: behind)

def positionals (l : List (Item N)) : List Str :=
  l.filterMap fun
    | .option .. => none
    | .positional a => some a

/-- An argument with a dash that is no option. -/
def Item.Unknown : Item N → Prop
  | .option .. => False
  | .positional a => dash a = true

/-- An option that lacks its argument. -/
def Item.Lacks : Item N → Prop
  | .option d _ arg => d.argument = .required ∧ arg = none
  | .positional _ => False

def Item.Faulty (it : Item N) : Prop := it.Unknown ∨ it.Lacks

/-- The value of an option, where its key had some value before. -/
def Shows (d : Def N) (old : Option (Value N)) (arg : Option Str) (val : Value N) : Prop :=
  match d.flag with
  | .none => val = arg.elim (.boolean true) .string
  | .number => ∃ s n, arg = some s ∧ lua.tonumber s = some n ∧ val = .number n
  | .incremental => ∃ n, tonumber lua old = some n ∧ val = .number (lua.succ n)

/-- Each of the options has been recorded under its key. -/
def Recorded : (Str → Option (Value N)) → List (Item N) → (Str → Option (Value N)) → Prop
  | before, [], opt => opt = before
  | before, .positional _ :: l, opt => Recorded before l opt
  | before, .option d _ arg :: l, opt =>
    ∃ val, Shows lua d (before d.key) arg val ∧ Recorded (Function.update before d.key (some val)) l opt

/-- An error is returned if there is something wrong, and otherwise each argument is accounted for. -/
def Accounts (args : List Str) : Prop :=
  (items defs args).flatMap Item.texts = args ∧
  ((∃ it ∈ items defs args, it.Faulty) → ∃ err, getopt lua defs args = .error (.returned err)) ∧
  ((∀ it ∈ items defs args, ¬it.Faulty) → ∃ opt,
    getopt lua defs args = .ok (opt, positionals (items defs args)) ∧
    Recorded lua (defaults defs) (items defs args) opt)

def Item.sets (key : Str) : Item N → Bool
  | .option d _ _ => d.key == key
  | .positional _ => false

/-- The key has a number, by its default and the options in front. -/
def Numeric (front : List (Item N)) (key : Str) : Prop :=
  match (front.filter (Item.sets key)).getLast? with
  | some (.option d _ arg) => d.flag = .incremental ∨ ∃ s, arg = some s ∧ lua.tonumber s ≠ none
  | _ => tonumber lua (defaults defs key) ≠ none

/-- An option that counts what is no number. -/
def Item.Stops (front : List (Item N)) : Item N → Prop
  | .option d _ _ => d.flag = .incremental ∧ ¬Numeric lua defs front d.key
  | .positional _ => False

/-- An option has a value: one that takes an argument does not stand last without it, and a number is one. -/
def Item.Valued (back : List (Item N)) : Item N → Prop
  | .option d _ arg => (d.flag = .none → arg = none → back = [] → d.takes = false) ∧
    (d.flag = .number → ∃ s, arg = some s ∧ lua.tonumber s ≠ none)
  | .positional _ => True

/-- The arguments with which the code does as it should. -/
structure Fits (args : List Str) : Prop where
  counts : ∀ front it back, items defs args = front ++ it :: back → (∀ x ∈ front, ¬x.Lacks) →
    ¬(it.Lacks ∧ back ≠ []) → ¬it.Stops lua defs front
  found : (∃ it ∈ items defs args, it.Faulty) →
    ∃ front it back, items defs args = front ++ it :: back ∧ (it.Unknown ∨ it.Lacks ∧ back ≠ [])
  values : (∀ it ∈ items defs args, ¬it.Faulty) →
    ∀ front it back, items defs args = front ++ it :: back → it.Valued lua back

end Purpose

section Passes

variable {N : Type} {lua : Numbers N} {defs : List (Def N)} {d : Def N} {s t : State N} {a : Str}
    {nargs fuel : Nat}
  {rest : List Str}

/-- The value of an option, with what it has for an argument and whether it stands last. -/
def argument (d : Def N) (arg : Option Str) (last : Bool) : Option (Value N) :=
  arg.elim (if d.takes && last then none else some (.boolean true)) fun s => some (.string s)

/-- The second pass as a recursion over what the arguments are. -/
def runItems (lua : Numbers N) : (Str → Option (Value N)) → List (Item N) →
    Except Failure (Str → Option (Value N))
  | opt, [] => .ok opt
  | opt, .positional _ :: l => runItems lua opt l
  | opt, .option d a arg :: l =>
    if d.argument == .required && arg.isNone && !l.isEmpty then
      .error (.returned (message "Missing option argument for `" (some a)))
    else
      match flagged lua d (opt d.key) (argument d arg l.isEmpty) with
      | .error e => .error e
      | .ok val => runItems lua (Function.update opt d.key val) l

theorem has_none (names : Names) : names.has none = false := by
  cases names with
  | string s => rfl
  | list l => simp [Names.has]

theorem foldlM_none (h : s.args s.i = none) : defs.foldlM (process lua) s = .ok s := by
  induction defs with
  | nil => rfl
  | cons d defs ih =>
    have hskip : process lua s d = .ok s := by rw [process, h, has_none, if_pos rfl]
    rw [List.foldlM_cons, hskip]
    exact ih

/-- An option that is found is removed. -/
theorem process_removed (hhas : d.option.has (s.args s.i) = true) (h : process lua s d = .ok t) :
    t.args t.i = none := by
  rw [process, hhas, if_neg (by decide)] at h
  dsimp only at h
  split at h
  · cases h
  · split at h
    · cases h
    · cases h
      exact Function.update_self ..

/-- Of the definitions just the first that has the argument does something. -/
theorem foldlM_find (s : State N) : defs.foldlM (process lua) s =
    (defs.find? fun d => d.option.has (s.args s.i)).elim (.ok s) (process lua s) := by
  induction defs with
  | nil => rfl
  | cons d defs ih =>
    rw [List.foldlM_cons]
    cases hhas : d.option.has (s.args s.i) with
    | true =>
      rw [List.find?_cons_of_pos (by exact hhas), Option.elim_some]
      cases hprocess : process lua s d with
      | error e => rfl
      | ok t => exact foldlM_none (process_removed hhas hprocess)
    | false =>
      have hskip : process lua s d = .ok s := by rw [process, if_pos hhas]
      rw [List.find?_cons_of_neg (by simp [hhas]), hskip]
      exact ih

/-- An option in front of another one, or without an argument of its own. -/
theorem process_single (hhas : d.option.has (s.args s.i) = true)
    (hnext : ((s.args (s.i + 1)).any dash || !d.takes) = true) : process lua s d =
      if (s.args (s.i + 1)).any dash && d.argument == .required then
        .error (.returned (message "Missing option argument for `" (s.args s.i)))
      else
        match flagged lua d (s.opt d.key) (some (.boolean true)) with
        | .error e => .error e
        | .ok val => .ok (s.assign d.key val) := by
  have htake : takeArgument s d ((s.args (s.i + 1)).any dash) = (s, some (.boolean true)) := by
    rcases Bool.or_eq_true_iff.mp hnext with hdash | htakes
    · rw [takeArgument, hdash]
      rfl
    · rw [takeArgument, (Bool.not_eq_true' _).mp htakes, Bool.and_false, if_neg Bool.false_ne_true]
  rw [process, hhas, if_neg (by decide)]
  simp only [htake]

/-- An option with an argument, or at the end. -/
theorem process_taken (hhas : d.option.has (s.args s.i) = true) (hnext : (s.args (s.i + 1)).any dash = false)
    (htakes : d.takes = true) : process lua s d =
      match flagged lua d (s.opt d.key) ((s.args (s.i + 1)).map .string) with
      | .error e => .error e
      | .ok val => .ok
        ⟨Function.update s.opt d.key val,
          Function.update (Function.update s.args s.i none) (s.i + 1) none, s.i + 1⟩ := by
  have htake : takeArgument s d false =
      (⟨s.opt, Function.update s.args s.i none, s.i + 1⟩, (s.args (s.i + 1)).map .string) := by
    simp [takeArgument, htakes]
  rw [process, hhas, if_neg (by decide)]
  simp only [hnext, Bool.false_and, htake]
  rw [if_neg Bool.false_ne_true]
  rfl

/-- The loop of the second pass, from its test on. -/
def resume (lua : Numbers N) (defs : List (Def N)) (nargs fuel : Nat) (s : State N) :
    Except Failure (State N) :=
  if s.i > nargs then .ok s else secondPass lua defs nargs fuel s

/-- What is left of the arguments behind a position. -/
def left (args : Nat → Option Str) (i count : Nat) : List Str := (List.range' i count).filterMap args

/-- The state behind the second pass, with what the arguments are from some position on. -/
structure Passed (s t : State N) (opt : Str → Option (Value N)) (texts : List Str) (count : Nat) : Prop where
  opt : t.opt = opt
  front : ∀ j, j < s.i → t.args j = s.args j
  rest : left t.args s.i count = texts

theorem left_cons (args : Nat → Option Str) (i count : Nat) :
    left args i (count + 1) = (args i).toList ++ left args (i + 1) count := by
  rw [left, List.range'_succ, List.filterMap_cons, left]
  cases args i <;> rfl

theorem resume_step (hi : s.i ≤ nargs) (hfuel : fuel ≠ 0) : resume lua defs nargs fuel s =
    match (defs.find? fun d => d.option.has (s.args s.i)).elim (.ok s) (process lua s) with
    | .error e => .error e
    | .ok t => resume lua defs nargs (fuel - 1) { t with i := t.i + 1 } := by
  obtain ⟨fuel, rfl⟩ := Nat.exists_eq_succ_of_ne_zero hfuel
  rw [resume, if_neg (Nat.not_lt.mpr hi), secondPass, foldlM_find]
  rfl

theorem isEmpty_items (defs : List (Def N)) (b : Str) (behind : List Str) :
    (items defs (b :: behind)).isEmpty = false := by
  rw [items]
  split
  · rfl
  · split
    · rfl
    · split <;> rfl

/-- The second pass does what the recursion over the items does. -/
theorem resume_items (hargs : ∀ k, s.args (s.i + k) = rest[k]?) (hi : s.i + rest.length = nargs + 1)
    (hfuel : rest.length ≤ fuel) :
    (∀ e, runItems lua s.opt (items defs rest) = .error e → resume lua defs nargs fuel s = .error e) ∧
    ∀ opt, runItems lua s.opt (items defs rest) = .ok opt → ∃ t, resume lua defs nargs fuel s = .ok t ∧
      Passed s t opt (positionals (items defs rest)) rest.length := by
  fun_induction items defs rest generalizing s fuel with
  | case1 =>
    have hend : s.i > nargs := by
      rw [List.length_nil] at hi
      omega
    rw [resume, if_pos hend]
    refine ⟨(by intro e h; cases h), fun opt h => ?_⟩
    cases h
    exact ⟨s, rfl, rfl, fun _ _ => rfl, rfl⟩
  | case2 a rest hfind ih =>
    rw [List.length_cons] at hi hfuel
    have ha : s.args s.i = some a := hargs 0
    obtain ⟨herror, hok⟩ := @ih { s with i := s.i + 1 } (fuel - 1)
      (fun k => by rw [Nat.add_assoc, Nat.add_comm 1 k]; exact hargs (k + 1)) (by dsimp only; omega)
        (by omega)
    have hstep : resume lua defs nargs fuel s = resume lua defs nargs (fuel - 1) { s with i := s.i + 1 } := by
      rw [resume_step (by omega) (by omega), ha, hfind]
      rfl
    rw [hstep]
    refine ⟨herror, fun opt h => ?_⟩
    obtain ⟨t, ht, hopt, hfront, hrest⟩ := hok opt h
    refine ⟨t, ht, hopt, fun j hj => hfront j (Nat.lt_succ_of_lt hj), ?_⟩
    rw [List.length_cons, left_cons, hrest, hfront s.i (Nat.lt_succ_self _), ha]
    rfl
  | case3 a d hfind =>
    have ha : s.args s.i = some a := hargs 0
    have hnone : s.args (s.i + 1) = none := hargs 1
    rw [List.length_singleton] at hi hfuel
    have hhas : d.option.has (s.args s.i) = true := by
      rw [ha]
      simpa using List.find?_some hfind
    rw [resume_step (by omega) (by omega), ha, hfind, Option.elim_some, runItems]
    simp only [List.isEmpty_nil, Bool.not_true, Bool.and_false, Bool.false_eq_true, if_false]
    cases htakes : d.takes with
    | true =>
      rw [process_taken hhas (by rw [hnone]; rfl) htakes, hnone, argument, htakes]
      simp only [Option.elim_none, Bool.and_self, if_true, Option.map_none]
      cases flagged lua d (s.opt d.key) none with
      | error e => exact ⟨(by intro f h; cases h; rfl), (by intro opt h; cases h)⟩
      | ok val =>
        refine ⟨(by intro e h; cases h), fun opt h => ?_⟩
        cases h
        refine ⟨_, if_pos (by dsimp only; omega), rfl, fun j hj => ?_, ?_⟩
        · dsimp only
          rw [Function.update_of_ne (by omega), Function.update_of_ne (by omega)]
        · rw [List.length_singleton, left_cons]
          simp [left, positionals]
    | false =>
      rw [process_single hhas (by rw [htakes, Bool.not_false, Bool.or_true]), hnone, argument, htakes]
      simp only [Option.elim_none, Bool.false_and, Option.any_none, Bool.false_eq_true, if_false]
      cases flagged lua d (s.opt d.key) (some (.boolean true)) with
      | error e => exact ⟨(by intro f h; cases h; rfl), (by intro opt h; cases h)⟩
      | ok val =>
        refine ⟨(by intro e h; cases h), fun opt h => ?_⟩
        cases h
        refine ⟨_, if_pos (by dsimp only [State.assign]; omega), rfl, fun j hj => ?_, ?_⟩
        · exact Function.update_of_ne (by omega) _ _
        · rw [List.length_singleton, left_cons]
          simp [left, positionals, State.assign]
  | case4 a d hfind b behind htaken ih =>
    rw [List.length_cons, List.length_cons] at hi hfuel
    have ha : s.args s.i = some a := hargs 0
    have hb : s.args (s.i + 1) = some b := hargs 1
    obtain ⟨htakes, hdash⟩ := Bool.and_eq_true_iff.mp htaken
    rw [Bool.not_eq_true'] at hdash
    have hhas : d.option.has (s.args s.i) = true := by
      rw [ha]
      simpa using List.find?_some hfind
    rw [resume_step (by omega) (by omega), ha, hfind, Option.elim_some, runItems,
      process_taken hhas (by rw [hb]; exact hdash) htakes, hb]
    simp only [Option.isNone_some, Bool.and_false, Bool.false_and, Bool.false_eq_true, if_false, argument,
      Option.elim_some, Option.map_some]
    cases flagged lua d (s.opt d.key) (some (.string b)) with
    | error e => exact ⟨(by intro f h; cases h; rfl), (by intro opt h; cases h)⟩
    | ok val =>
      obtain ⟨herror, hok⟩ := @ih ⟨Function.update s.opt d.key val,
        Function.update (Function.update s.args s.i none) (s.i + 1) none, s.i + 1 + 1⟩ (fuel - 1)
        (fun k => by
          have hindex : s.i + 1 + 1 + k = s.i + (k + 2) := by omega
          dsimp only
          rw [Function.update_of_ne (by omega), Function.update_of_ne (by omega), hindex]
          exact hargs (k + 2)) (by dsimp only; omega) (by omega)
      refine ⟨herror, fun opt h => ?_⟩
      obtain ⟨t, ht, hopt, hfront, hrest⟩ := hok opt h
      refine ⟨t, ht, hopt, fun j hj => ?_, ?_⟩
      · rw [hfront j (by dsimp only; omega)]
        dsimp only
        rw [Function.update_of_ne (by omega), Function.update_of_ne (by omega)]
      · have hoption : t.args s.i = none := by
          rw [hfront s.i (by dsimp only; omega)]
          dsimp only
          rw [Function.update_of_ne (by omega), Function.update_self]
        have hargument : t.args (s.i + 1) = none := by
          rw [hfront (s.i + 1) (by dsimp only; omega)]
          exact Function.update_self ..
        rw [List.length_cons, List.length_cons, left_cons, left_cons, hoption, hargument, hrest]
        rfl
  | case5 a d hfind b behind hnot ih =>
    rw [List.length_cons] at hi hfuel
    have ha : s.args s.i = some a := hargs 0
    have hb : s.args (s.i + 1) = some b := hargs 1
    have hhas : d.option.has (s.args s.i) = true := by
      rw [ha]
      simpa using List.find?_some hfind
    have hsingle : (dash b || !d.takes) = true := by
      cases hdash : dash b with
      | true => rfl
      | false => simpa [hdash] using hnot
    have hrequired : (dash b && d.argument == .required) = (d.argument == .required) := by
      cases hreq : d.argument == .required with
      | false => exact Bool.and_false _
      | true =>
        rw [Def.takes, hreq, Bool.true_or, Bool.not_true, Bool.or_false] at hsingle
        rw [hsingle]
        rfl
    rw [resume_step (by omega) (by omega), ha, hfind, Option.elim_some, runItems,
      process_single hhas (by rw [hb]; exact hsingle), hb, ha, isEmpty_items]
    simp only [Option.isNone_none, Bool.and_true, Bool.not_false, Option.any_some, hrequired, argument,
      Option.elim_none, Bool.and_false, Bool.false_eq_true, if_false]
    cases hreq : d.argument == .required with
    | true => exact ⟨(by intro f h; cases h; rfl), (by intro opt h; cases h)⟩
    | false =>
      rw [if_neg Bool.false_ne_true, if_neg Bool.false_ne_true]
      cases flagged lua d (s.opt d.key) (some (.boolean true)) with
      | error e => exact ⟨(by intro f h; cases h; rfl), (by intro opt h; cases h)⟩
      | ok val =>
        obtain ⟨herror, hok⟩ := @ih { s.assign d.key val with i := s.i + 1 } (fuel - 1)
          (fun k => by
            have hindex : s.i + 1 + k = s.i + (k + 1) := by omega
            simp only [State.assign]
            rw [Function.update_of_ne (by omega), hindex]
            exact hargs (k + 1)) (by dsimp only; omega) (by omega)
        refine ⟨herror, fun opt h => ?_⟩
        obtain ⟨t, ht, hopt, hfront, hrest⟩ := hok opt h
        refine ⟨t, ht, hopt, fun j hj => ?_, ?_⟩
        · rw [hfront j (by dsimp only; omega)]
          exact Function.update_of_ne (by omega) _ _
        · have hoption : t.args s.i = none := by
            rw [hfront s.i (by dsimp only; omega)]
            exact Function.update_self ..
          rw [List.length_cons, left_cons, hoption, hrest]
          rfl

/-- The second pass does what the recursion over the items does, from the start. -/
theorem secondPass_items (lua : Numbers N) (defs : List (Def N)) (args : List Str) :
    let start : State N := ⟨defaults defs, fun i => if i = 0 then none else args[i - 1]?, 1⟩
    (∀ e, runItems lua (defaults defs) (items defs args) = .error e →
      secondPass lua defs args.length (args.length + 1) start = .error e) ∧
    ∀ opt, runItems lua (defaults defs) (items defs args) = .ok opt →
      ∃ t, secondPass lua defs args.length (args.length + 1) start = .ok t ∧ t.opt = opt ∧
        left t.args 1 args.length = positionals (items defs args) := by
  intro start
  have hargs : ∀ k, start.args (start.i + k) = args[k]? := by
    intro k
    have hpos : 1 + k ≠ 0 := by omega
    simp only [start, if_neg hpos, Nat.add_sub_cancel_left]
  cases args with
  | nil =>
    have hend : secondPass lua defs 0 1 start = .ok { start with i := 2 } := by
      rw [secondPass, foldlM_none (hargs 0)]
      rfl
    refine ⟨(by intro e h; cases h), fun opt h => ?_⟩
    cases h
    exact ⟨_, hend, rfl, rfl⟩
  | cons a rest =>
    have hresume : resume lua defs (a :: rest).length ((a :: rest).length + 1) start =
        secondPass lua defs (a :: rest).length ((a :: rest).length + 1) start := by
      rw [resume, if_neg (by simp [start])]
    obtain ⟨herror, hok⟩ :=
      @resume_items N lua defs start (a :: rest).length ((a :: rest).length + 1) (a :: rest)
      hargs (Nat.add_comm ..) (Nat.le_succ _)
    rw [hresume] at herror hok
    refine ⟨herror, fun opt h => ?_⟩
    obtain ⟨t, ht, hopt, -, hrest⟩ := hok opt h
    exact ⟨t, ht, hopt, hrest⟩

theorem thirdPass_error {args : Nat → Option Str} {is : List Nat} {arg : List Str}
    (h : ∃ a ∈ is.filterMap args, dash a = true) : ∃ err, thirdPass args is arg = .error (.returned err) := by
  induction is generalizing arg with
  | nil => simp at h
  | cons i is ih =>
    rw [thirdPass]
    cases hi : args i with
    | none =>
      rw [List.filterMap_cons_none hi] at h
      exact ih h
    | some a =>
      rw [List.filterMap_cons_some hi, List.exists_mem_cons_iff] at h
      dsimp only
      by_cases hdash : dash a = true
      · exact ⟨_, if_pos hdash⟩
      · rw [if_neg hdash]
        exact ih (h.resolve_left hdash)

theorem thirdPass_ok {args : Nat → Option Str} {is : List Nat} {arg : List Str}
    (h : ∀ a ∈ is.filterMap args, ¬dash a = true) :
    thirdPass args is arg = .ok (arg ++ is.filterMap args) := by
  induction is generalizing arg with
  | nil => simp [thirdPass]
  | cons i is ih =>
    rw [thirdPass]
    cases hi : args i with
    | none =>
      rw [List.filterMap_cons_none hi] at h ⊢
      exact ih h
    | some a =>
      rw [List.filterMap_cons_some hi] at h ⊢
      dsimp only
      rw [if_neg (h a List.mem_cons_self), ih fun b hb => h b (List.mem_cons_of_mem a hb), List.append_assoc]
      rfl

/-- How a call ends, by the second pass and by the positional arguments with a dash. -/
theorem getopt_of_error {args : List Str} {e : Failure}
    (h : runItems lua (defaults defs) (items defs args) = .error e) : getopt lua defs args = .error e := by
  rw [getopt, (secondPass_items lua defs args).1 e h]

theorem unknown_iff {l : List (Item N)} : (∃ it ∈ l, it.Unknown) ↔ ∃ a ∈ positionals l, dash a = true := by
  constructor
  · rintro ⟨it, hit, hunknown⟩
    cases it with
    | option d a arg => exact hunknown.elim
    | positional a => exact ⟨a, List.mem_filterMap.mpr ⟨_, hit, rfl⟩, hunknown⟩
  · rintro ⟨a, ha, hdash⟩
    obtain ⟨it, hit, heq⟩ := List.mem_filterMap.mp ha
    cases it with
    | option d b arg => cases heq
    | positional b =>
      cases heq
      exact ⟨_, hit, hdash⟩

theorem getopt_unknown {args : List Str} {opt : Str → Option (Value N)}
    (h : runItems lua (defaults defs) (items defs args) = .ok opt)
    (hunknown : ∃ it ∈ items defs args, it.Unknown) :
    ∃ err, getopt lua defs args = .error (.returned err) := by
  obtain ⟨t, ht, -, hleft⟩ := (secondPass_items lua defs args).2 opt h
  rw [unknown_iff, ← hleft] at hunknown
  obtain ⟨err, herr⟩ := @thirdPass_error _ _ [] hunknown
  exact ⟨err, by rw [getopt, ht]; dsimp only; rw [herr]⟩

theorem getopt_ok {args : List Str} {opt : Str → Option (Value N)}
    (h : runItems lua (defaults defs) (items defs args) = .ok opt)
    (hknown : ¬∃ it ∈ items defs args, it.Unknown) :
    getopt lua defs args = .ok (opt, positionals (items defs args)) := by
  obtain ⟨t, ht, hopt, hleft⟩ := (secondPass_items lua defs args).2 opt h
  rw [unknown_iff, ← hleft] at hknown
  have hthird := @thirdPass_ok t.args (List.range' 1 args.length) [] fun a ha hdash => hknown ⟨a, ha, hdash⟩
  rw [getopt, ht]
  dsimp only
  rw [hthird, hopt, ← hleft]
  rfl

theorem items_texts (defs : List (Def N)) (args : List Str) :
    (items defs args).flatMap Item.texts = args := by
  fun_induction items defs args with
  | case1 => rfl
  | case2 a rest hfind ih => rw [List.flatMap_cons, ih, Item.texts]; rfl
  | case3 a d hfind => rfl
  | case4 a d hfind b behind htaken ih => rw [List.flatMap_cons, ih, Item.texts]; rfl
  | case5 a d hfind b behind hnot ih => rw [List.flatMap_cons, ih, Item.texts]; rfl

end Passes

end T2SDE.Getopt
