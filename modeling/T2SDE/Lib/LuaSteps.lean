import T2SDE.Lib.LuaMatch

namespace Lua

open Text

/-- A step of `match` through a pattern. -/
inductive PatternStep
  | item (i : Item)
  | position
  | balance (x y : Char)
  | frontier (cls : CharClass)
  | back (digit : Char)
  | malformed
  deriving DecidableEq

/-- The step at the start of a pattern, and what is behind it; none where the pattern is malformed there. -/
def parseStep : Str → Option (PatternStep × Str)
  | [] => none
  | c :: s =>
    if c = '(' then if s.head? = some ')' then some (.position, s.drop 1) else some (.item .openCapture, s)
    else if c = ')' then some (.item .closeCapture, s)
    else if c = '$' ∧ s = [] then some (.item .atEnd, [])
    else if c = '%' ∧ s.head? = some 'b' then
      match s.drop 1 with
      | x :: y :: rest => some (.balance x y, rest)
      | _ => none
    else if c = '%' ∧ s.head? = some 'f' then
      if (s.drop 1).head? = some '[' then (parseClass (s.drop 1)).map fun found =>
      (.frontier found.1, found.2) else none
    else if c = '%' ∧ s.head?.any Char.isDigit then some (.back (s.headD '0'), s.drop 1)
    else (parseClass (c :: s)).map fun found =>
      (.item (.single found.1 (parseQuantifier found.2).1), (parseQuantifier found.2).2)

/-- The steps of a pattern up to the place where it is malformed, with fuel for its length. -/
def parseSteps : Nat → Str → List PatternStep
  | _, [] => []
  | 0, _ :: _ => [.malformed]
  | fuel + 1, c :: s =>
    match parseStep (c :: s) with
    | none => [.malformed]
    | some (step, rest) => step :: parseSteps fuel rest

/-- A capture: still open, closed, or a position. -/
inductive Slot
  | unfinished (start : Str)
  | text (s : Str)
  | position

def Slot.isOpen : Slot → Bool
  | .unfinished _ => true
  | _ => false

/-- `end_capture`: the last open one is closed. -/
def endCapture (stop : Str) : List Slot → Option (List Slot)
  | [] => none
  | .unfinished start :: cs => some (.text (between start stop) :: cs)
  | c :: cs => (endCapture stop cs).map (c :: ·)

def maxCaptures : Nat := 32

/-- The capture that a digit refers to. -/
def captureOf (digit : Char) (cs : List Slot) : Option Slot :=
  if digit = '0' then none else cs.reverse[digit.toNat - '1'.toNat]?

/-- `matchbalance` behind the first character, with the number of the open ones. -/
def balanced (x y : Char) : Nat → Str → Option Str
  | _, [] => none
  | n, c :: s => if c = y then if n ≤ 1 then some s else balanced x y (n - 1) s
  else balanced x y (if c = x then n + 1 else n) s

def matchbalance (x y : Char) : Str → Option Str
  | [] => none
  | c :: s => if c = x then balanced x y 1 s else none

/-- The character before a place of the subject. -/
def previous (src s : Str) : Char := (between src s).getLastD '\x00'

section Try

variable {β : Type}

/-- `max_expand`, where an error ends all of it. -/
def maxTry (k : Str → Option (Option β)) (p : Char → Bool) : Str → Option (Option β)
  | [] => k []
  | c :: s =>
    if p c then (maxTry k p s).bind fun r => if r.isSome then some r else k (c :: s)
    else k (c :: s)

def minTry (k : Str → Option (Option β)) (p : Char → Bool) : Str → Option (Option β)
  | [] => k []
  | c :: s => (k (c :: s)).bind fun r => if r.isSome then some r else if p c then minTry k p s else some none

end Try

/-- `match`: none where it stops with an error, else where the match ends, if there is one. -/
def matchSteps (src : Str) : List PatternStep → Str → List Slot → Option (Option (Str × List Slot))
  | [], s, cs => some (some (s, cs))
  | .malformed :: _, _, _ => none
  | .position :: steps, s, cs => if cs.length < maxCaptures then matchSteps src steps s (.position :: cs)
  else none
  | .balance x y :: steps, s, cs =>
    match matchbalance x y s with
    | none => some none
    | some s => matchSteps src steps s cs
  | .frontier cls :: steps, s, cs =>
    if !cls.admits (previous src s) && cls.admits (s.headD '\x00') then matchSteps src steps s cs
    else some none
  | .back digit :: steps, s, cs =>
    match captureOf digit cs with
    | some (.text t) => if t.isPrefixOf s then matchSteps src steps (s.drop t.length) cs else some none
    | some .position => some none
    | _ => none
  | .item .openCapture :: steps, s, cs =>
    if cs.length < maxCaptures then matchSteps src steps s (.unfinished s :: cs) else none
  | .item .closeCapture :: steps, s, cs => (endCapture s cs).bind fun cs => matchSteps src steps s cs
  | .item .atEnd :: _, s, cs => some (if s = [] then some (s, cs) else none)
  | .item (.single cls .one) :: steps, s, cs =>
    match s with
    | [] => some none
    | c :: s => if cls.admits c then matchSteps src steps s cs else some none
  | .item (.single cls .optional) :: steps, s, cs =>
    match s with
    | [] => matchSteps src steps [] cs
    | c :: s =>
      if cls.admits c then (matchSteps src steps s cs).bind fun r =>
      if r.isSome then some r else matchSteps src steps (c :: s) cs
      else matchSteps src steps (c :: s) cs
  | .item (.single cls .star) :: steps, s, cs => maxTry (fun s => matchSteps src steps s cs) cls.admits s
  | .item (.single cls .plus) :: steps, s, cs =>
    match s with
    | [] => some none
    | c :: s => if cls.admits c then maxTry (fun s => matchSteps src steps s cs) cls.admits s else some none
  | .item (.single cls .minus) :: steps, s, cs => minTry (fun s => matchSteps src steps s cs) cls.admits s

/-- The first place of the subject from which the pattern matches. -/
def matchFrom (src : Str) (steps : List PatternStep) : Str → Option (Option (Str × List Slot))
  | [] => matchSteps src steps [] []
  | c :: s => (matchSteps src steps (c :: s) []).bind fun r =>
  if r.isSome then some r else matchFrom src steps s

/-- Whether there is a match; a capture that is still open is an error. -/
def succeeded : Option (Str × List Slot) → Option Bool
  | none => some false
  | some found => if found.2.any Slot.isOpen then none else some true

/-- Whether `string.match` succeeds; none where it stops with an error. -/
def strMatches (s pattern : Str) : Option Bool :=
  if pattern.head? = some '^' then (matchSteps s (parseSteps pattern.length (pattern.drop 1)) s []).bind
    succeeded
  else (matchFrom s (parseSteps pattern.length pattern) s).bind succeeded

section Run

variable {src s : Str} {items : List Item} {cs : List Slot}

/-- Items that neither open nor close a capture. -/
def Item.free : Item → Bool
  | .openCapture => false
  | .closeCapture => false
  | _ => true

theorem maxTry_some {β : Type} {k : Str → Option (Option β)} {k' : Str → Option β} {p : Char → Bool}
    (h : ∀ s, k s = some (k' s)) (s : Str) : maxTry k p s = some (maxExpand k' p s) := by
  induction s with
  | nil => exact h []
  | cons c s ih =>
    rw [maxTry, maxExpand, ih, h]
    split
    next =>
      cases maxExpand k' p s with
      | none => rfl
      | some r => rfl
    next => rfl

theorem minTry_some {β : Type} {k : Str → Option (Option β)} {k' : Str → Option β} {p : Char → Bool}
    (h : ∀ s, k s = some (k' s)) (s : Str) : minTry k p s = some (minExpand k' p s) := by
  induction s with
  | nil => exact h []
  | cons c s ih =>
    rw [minTry, minExpand, ih, h]
    cases k' (c :: s) with
    | none =>
      cases p c with
      | false => rfl
      | true => rfl
    | some r => rfl

theorem maxExpand_map {β γ : Type} (k : Str → Option β) (f : β → γ) (p : Char → Bool) (s : Str) :
    maxExpand (fun s => (k s).map f) p s = (maxExpand k p s).map f := by
  induction s with
  | nil => rfl
  | cons c s ih =>
    rw [maxExpand, maxExpand, ih]
    split
    next =>
      cases maxExpand k p s with
      | none => rfl
      | some r => rfl
    next => rfl

theorem minExpand_map {β γ : Type} (k : Str → Option β) (f : β → γ) (p : Char → Bool) (s : Str) :
    minExpand (fun s => (k s).map f) p s = (minExpand k p s).map f := by
  induction s with
  | nil => rfl
  | cons c s ih =>
    rw [minExpand, minExpand, ih]
    cases k (c :: s) with
    | none =>
      cases p c with
      | false => rfl
      | true => rfl
    | some r => rfl

/-- Without captures there is no error, and the match is that of the items. -/
theorem matchSteps_items (h : items.all Item.free = true) (s : Str) (cs : List Slot) :
    matchSteps src (items.map .item) s cs = some ((doMatch items s []).map fun r => (r.1, cs)) := by
  induction items generalizing s with
  | nil => rfl
  | cons i items ih =>
    rw [List.all_cons, Bool.and_eq_true] at h
    have ih := ih h.2
    have hmax : ∀ cls : CharClass, ∀ s, maxTry (fun s => matchSteps src (items.map .item) s cs) cls.admits s =
        some ((maxExpand (fun s => doMatch items s []) cls.admits s).map fun r => (r.1, cs)) := by
      intro cls s
      rw [maxTry_some ih, maxExpand_map]
    have hmin : ∀ cls : CharClass, ∀ s, minTry (fun s => matchSteps src (items.map .item) s cs) cls.admits s =
        some ((minExpand (fun s => doMatch items s []) cls.admits s).map fun r => (r.1, cs)) := by
      intro cls s
      rw [minTry_some ih, minExpand_map]
    cases i with
    | openCapture => exact absurd h.1 (by decide)
    | closeCapture => exact absurd h.1 (by decide)
    | atEnd =>
      rw [List.map_cons, matchSteps, doMatch]
      split
      next => rfl
      next => rfl
    | single cls q =>
      cases q with
      | one =>
        cases s with
        | nil => rfl
        | cons c s =>
          rw [List.map_cons, matchSteps, doMatch]
          split
          next => exact ih s
          next => rfl
      | optional =>
        cases s with
        | nil => exact ih []
        | cons c s =>
          rw [List.map_cons, matchSteps, doMatch_optional_cons, ih, ih]
          split
          next =>
            cases doMatch items s [] with
            | none => rfl
            | some r => rfl
          next => rfl
      | star => exact hmax cls s
      | plus =>
        cases s with
        | nil => rfl
        | cons c s =>
          rw [List.map_cons, matchSteps, doMatch_plus_cons]
          split
          next => exact hmax cls s
          next => rfl
      | minus => exact hmin cls s

end Run

end Lua
