import T2SDE.Lib.Text

namespace Lua

open Text

/-- The classes written with `%` and a letter; upper case negates, and any other character
stands for itself. -/
def percentClass (cl c : Char) : Bool :=
  let code := c.toNat
  let graph := 33 ≤ code && code ≤ 126
  let known (b : Bool) := if cl.isUpper then !b else b
  match cl.toLower with
  | 'a' => known c.isAlpha
  | 'c' => known (code < 32 || code == 127)
  | 'd' => known c.isDigit
  | 'g' => known graph
  | 'l' => known c.isLower
  | 'p' => known (graph && !c.isAlphanum)
  | 's' => known (c == ' ' || (9 ≤ code && code ≤ 13))
  | 'u' => known c.isUpper
  | 'w' => known c.isAlphanum
  | 'x' => known (c.isDigit || (c.toLower.toNat ≥ 97 && c.toLower.toNat ≤ 102))
  | _ => cl == c

inductive SetElem
  | char (c : Char)
  | range (a b : Char)
  | percent (cl : Char)
  deriving DecidableEq

def SetElem.admits (c : Char) : SetElem → Bool
  | .char d => d == c
  | .range a b => a.toNat ≤ c.toNat && c.toNat ≤ b.toNat
  | .percent cl => percentClass cl c

inductive CharClass
  | char (c : Char)
  | any
  | percent (cl : Char)
  | set (negated : Bool) (elems : List SetElem)
  deriving DecidableEq

def CharClass.admits : CharClass → Char → Bool
  | .char d, c => d == c
  | .any, _ => true
  | .percent cl, c => percentClass cl c
  | .set negated elems, c => (elems.any (SetElem.admits c)) != negated

inductive Quantifier
  | one | optional | star | plus | minus
  deriving DecidableEq

inductive Item
  | single (c : CharClass) (q : Quantifier)
  | openCapture
  | closeCapture
  | atEnd
  deriving DecidableEq

structure Pattern where
  anchor : Bool
  items : List Item
  deriving DecidableEq

/-- The text of a set up to its closing bracket, which is never its first character, and the
text behind it. -/
def setBody : Str → Option (Str × Str)
  | [] => none
  | [_] => none
  | '%' :: c :: s =>
    match s with
    | ']' :: rest => some (['%', c], rest)
    | s => (setBody s).map fun (body, rest) => ('%' :: c :: body, rest)
  | c :: ']' :: rest => some ([c], rest)
  | c :: s => (setBody s).map fun (body, rest) => (c :: body, rest)

def setElems : Str → List SetElem
  | [] => []
  | '%' :: c :: s => .percent c :: setElems s
  | a :: '-' :: b :: s => .range a b :: setElems s
  | c :: s => .char c :: setElems s

/-- The single-character class at the start of a pattern, and what follows it. Balanced
matches, frontiers and back references are not among them. -/
def parseClass : Str → Option (CharClass × Str)
  | [] => none
  | '.' :: s => some (.any, s)
  | ['%'] => none
  | '%' :: c :: s => if c == 'b' || c == 'f' || c.isDigit then none else some (.percent c, s)
  | '[' :: '^' :: s => (setBody s).map fun (body, rest) => (.set true (setElems body), rest)
  | '[' :: s => (setBody s).map fun (body, rest) => (.set false (setElems body), rest)
  | c :: s => some (.char c, s)

def parseQuantifier : Str → Quantifier × Str
  | '*' :: s => (.star, s)
  | '+' :: s => (.plus, s)
  | '-' :: s => (.minus, s)
  | '?' :: s => (.optional, s)
  | s => (.one, s)

def parseItems : Nat → Str → Option (List Item)
  | _, [] => some []
  | 0, _ :: _ => none
  | fuel + 1, '(' :: s => (parseItems fuel s).map (.openCapture :: ·)
  | fuel + 1, ')' :: s => (parseItems fuel s).map (.closeCapture :: ·)
  | fuel + 1, c :: s =>
    if c = '$' ∧ s = [] then some [.atEnd]
    else
      (parseClass (c :: s)).bind fun (cls, s) =>
        (parseItems fuel (parseQuantifier s).2).map (.single cls (parseQuantifier s).1 :: ·)

/-- A pattern; none where it is malformed. -/
def compile : Str → Option Pattern
  | '^' :: s => (parseItems s.length s).map (Pattern.mk true)
  | s => (parseItems s.length s).map (Pattern.mk false)

/-- A capture that is still open from a position on, or its text. -/
inductive Capture
  | unfinished (start : Str)
  | text (s : Str)

def Capture.string : Capture → Str
  | .unfinished _ => []
  | .text s => s

/-- The text between two positions of the subject. -/
def between (start stop : Str) : Str := start.take (start.length - stop.length)

/-- Close the capture opened last; the captures are kept with the last one first. -/
def close (stop : Str) : List Capture → Option (List Capture)
  | [] => none
  | .unfinished start :: cs => some (.text (between start stop) :: cs)
  | .text s :: cs => (close stop cs).map (.text s :: ·)

section Expand

variable {β : Type}

/-- `max_expand`: the longest run first. -/
def maxExpand (k : Str → Option β) (p : Char → Bool) : Str → Option β
  | [] => k []
  | c :: s =>
    if p c then
      match maxExpand k p s with
      | some r => some r
      | none => k (c :: s)
    else k (c :: s)

def minExpand (k : Str → Option β) (p : Char → Bool) : Str → Option β
  | [] => k []
  | c :: s =>
    match k (c :: s) with
    | some r => some r
    | none => if p c then minExpand k p s else none

end Expand

/-- `do_match`: where the match ends, and the captures. -/
def doMatch : List Item → Str → List Capture → Option (Str × List Capture)
  | [], s, cs => some (s, cs)
  | .openCapture :: items, s, cs => doMatch items s (.unfinished s :: cs)
  | .closeCapture :: items, s, cs => (close s cs).bind (doMatch items s)
  | .atEnd :: _, s, cs => if s = [] then some (s, cs) else none
  | .single cls .one :: items, s, cs =>
    match s with
    | [] => none
    | c :: s => if cls.admits c then doMatch items s cs else none
  | .single cls .optional :: items, s, cs =>
    match s with
    | [] => doMatch items [] cs
    | c :: s =>
      if cls.admits c then
        match doMatch items s cs with
        | some r => some r
        | none => doMatch items (c :: s) cs
      else doMatch items (c :: s) cs
  | .single cls .star :: items, s, cs => maxExpand (fun s => doMatch items s cs) cls.admits s
  | .single cls .plus :: items, s, cs =>
    match s with
    | [] => none
    | c :: s => if cls.admits c then maxExpand (fun s => doMatch items s cs) cls.admits s else none
  | .single cls .minus :: items, s, cs => minExpand (fun s => doMatch items s cs) cls.admits s

section Steps

variable (cls : CharClass) (items : List Item) (c : Char) (s : Str) (cs : List Capture)

@[simp] theorem doMatch_nil : doMatch [] s cs = some (s, cs) := rfl

@[simp] theorem doMatch_openCapture :
    doMatch (.openCapture :: items) s cs = doMatch items s (.unfinished s :: cs) := rfl

@[simp] theorem doMatch_closeCapture :
    doMatch (.closeCapture :: items) s cs = (close s cs).bind (doMatch items s) := rfl

@[simp] theorem doMatch_one_nil : doMatch (.single cls .one :: items) [] cs = none := rfl

@[simp] theorem doMatch_one_cons :
    doMatch (.single cls .one :: items) (c :: s) cs = if cls.admits c then doMatch items s cs else none := rfl

@[simp] theorem doMatch_star :
    doMatch (.single cls .star :: items) s cs = maxExpand (fun u => doMatch items u cs) cls.admits s := rfl

@[simp] theorem doMatch_plus_cons :
    doMatch (.single cls .plus :: items) (c :: s) cs =
      if cls.admits c then maxExpand (fun u => doMatch items u cs) cls.admits s else none := rfl

theorem doMatch_optional_cons :
    doMatch (.single cls .optional :: items) (c :: s) cs =
      if cls.admits c then (doMatch items s cs).or (doMatch items (c :: s) cs)
      else doMatch items (c :: s) cs := by
  cases h : doMatch items s cs with
  | none => rw [Option.none_or, doMatch.eq_def]; simp [h]
  | some r => rw [Option.some_or, doMatch.eq_def]; simp [h]

end Steps

/-- A match in a subject: where it starts and ends, and the captures. -/
structure Found where
  start : Str
  stop : Str
  captures : List Capture

/-- The first position from which the items match. -/
def searchFrom (items : List Item) : Str → Option Found
  | [] => (doMatch items [] []).map fun (stop, cs) => ⟨[], stop, cs⟩
  | c :: s =>
    match doMatch items (c :: s) [] with
    | some (stop, cs) => some ⟨c :: s, stop, cs⟩
    | none => searchFrom items s

def search (pattern : Pattern) (s : Str) : Option Found :=
  if pattern.anchor then (doMatch pattern.items s []).map fun (stop, cs) => ⟨s, stop, cs⟩
  else searchFrom pattern.items s

/-- The texts of the captures, or of the whole match where there are none. -/
def Found.texts (found : Found) : List Str :=
  if found.captures.isEmpty then [between found.start found.stop]
  else found.captures.reverse.map Capture.string

/-- `string.match(s, pattern)`; none for nil. -/
def strMatch (s pattern : Str) : Option (List Str) :=
  (compile pattern).bind fun p => (search p s).map Found.texts

def gsubLoop (items : List Item) (repl : List Str → Str) : Nat → Str → Str
  | 0, s => s
  | fuel + 1, s =>
    match doMatch items s [] with
    | some (stop, cs) =>
      repl (Found.texts ⟨s, stop, cs⟩) ++
        if stop.length < s.length then gsubLoop items repl fuel stop
        else
          match s with
          | [] => []
          | c :: s => c :: gsubLoop items repl fuel s
    | none =>
      match s with
      | [] => []
      | c :: s => c :: gsubLoop items repl fuel s

/-- `string.gsub(s, pattern, repl)` for a pattern without anchor, where `repl` maps the captures
to the replacement. -/
def gsub (s pattern : Str) (repl : List Str → Str) : Str :=
  match compile pattern with
  | some p => gsubLoop p.items repl (s.length + 1) s
  | none => s

end Lua
