import Mathlib.Data.List.DropRight
import Mathlib.Logic.Function.Basic

namespace T2SDE.Btee

section Functions

def bufferSize : Nat := 8 * 1024 - 1

/-- `sizeof(buffer)` -/
def sizeofBuffer : Nat := bufferSize + 1

def endMark : UInt8 := 4

def newline : UInt8 := 10

def carriageReturn : UInt8 := 13

/-- The buffer, and the indices at which it has been read or written. -/
structure Mem where
  buffer : Nat → UInt8
  touched : List Nat

def Mem.touch (m : Mem) (i : Nat) : Mem := ⟨m.buffer, i :: m.touched⟩

def Mem.set (m : Mem) (i : Nat) (c : UInt8) : Mem := ⟨Function.update m.buffer i c, i :: m.touched⟩

/-- What `read` puts into the buffer. -/
def fill : List UInt8 → Nat → Mem → Mem
  | [], _, m => m
  | c :: chunk, i, m => fill chunk (i + 1) (m.set i c)

/-- From `y - 1` down to a newline the bytes are cleared. -/
def clear : Nat → Mem → Mem
  | 0, m => m
  | y + 1, m => if m.buffer y = newline then m.touch y else clear y (m.set y 0)

/-- The buffer in the second loop, `remove_zeros`, and the bytes after a carriage return that have
been inspected. -/
structure Pass where
  mem : Mem
  remove_zeros : Bool
  inspected : List Nat

def lookMark (s : Pass) (p : Nat) : Pass :=
  if s.mem.buffer p = endMark then { s with mem := (s.mem.touch p).set p 0, remove_zeros := true }
  else { s with mem := s.mem.touch p }

def lookReturn (s : Pass) (p : Nat) : Pass :=
  if s.mem.buffer p = carriageReturn then
    if s.mem.buffer (p + 1) ≠ newline then
      { mem := clear (p + 1) (s.mem.touch (p + 1)), remove_zeros := true,
        inspected := (p + 1) :: s.inspected }
    else { s with mem := s.mem.touch (p + 1), inspected := (p + 1) :: s.inspected }
  else s

/-- The second loop over the `n` bytes from `p` on. -/
def look : Nat → Nat → Pass → Pass
  | 0, _, s => s
  | n + 1, p, s => look n (p + 1) (lookReturn (lookMark s p) p)

/-- The loop that removes the zeros from the `n` bytes from `x` on. -/
def squeeze : Nat → Nat → Nat → Mem → Mem × Nat
  | 0, _, y, m => (m, y)
  | n + 1, x, y, m =>
    if m.buffer x ≠ 0 then squeeze n (x + 1) (y + 1) ((m.touch x).set y (m.buffer x))
    else squeeze n (x + 1) y (m.touch x)

/-- `mode` is with `O_TRUNC` until the log has been opened. -/
structure State where
  mem : Mem
  pos : Nat
  truncate : Bool
  log : List UInt8
  stdout : List UInt8

/-- What is read in a round, and whether the log can be opened then. -/
structure Round where
  chunk : List UInt8
  opens : Bool

/-- The position for `read`; a full buffer is dropped. -/
def State.start (s : State) : Nat := if bufferSize ≤ s.pos then 0 else s.pos

/-- The round up to the end of the second loop. -/
def State.pass (s : State) (r : Round) : Pass :=
  let n := r.chunk.length
  let m := (fill r.chunk s.start s.mem).set (s.start + n + 1) 0
  look n s.start ⟨m, false, []⟩

/-- The buffer and `pos` when the log is opened. -/
def State.squeezed (s : State) (r : Round) : Mem × Nat :=
  let pos := s.start + r.chunk.length
  if (s.pass r).remove_zeros then squeeze pos 0 0 (s.pass r).mem else ((s.pass r).mem, pos)

def contents (buffer : Nat → UInt8) (n : Nat) : List UInt8 := (List.range n).map buffer

def State.step (s : State) (r : Round) : State :=
  let (m, pos) := s.squeezed r
  let stdout := s.stdout ++ r.chunk.filter (· ≠ endMark)
  if r.opens then
    { mem := ⟨m.buffer, List.range pos ++ m.touched⟩, pos := 0, truncate := false,
      log := (if s.truncate then [] else s.log) ++ contents m.buffer pos, stdout }
  else { s with mem := m, pos, stdout }

/-- Before the first round, with the log as it is then. -/
def State.init (truncate : Bool) (log : List UInt8) : State := ⟨⟨fun _ => 0, []⟩, 0, truncate, log, []⟩

def run (s : State) : List Round → State
  | [] => s
  | r :: rounds => run (s.step r) rounds

/-- What `read` can return in the rounds. -/
def Readable : State → List Round → Prop
  | _, [] => True
  | s, r :: rounds => 0 < r.chunk.length ∧ r.chunk.length ≤ bufferSize - s.start ∧ Readable (s.step r) rounds

end Functions

section Statement

/-- A carriage return before something else than a newline comes before the next newline. -/
def erased : List UInt8 → Bool
  | [] => false
  | [_] => false
  | c :: d :: s => c != newline && (c == carriageReturn && d != newline || erased (d :: s))

/-- The bytes that are neither an end mark nor erased by a carriage return. -/
def kept : List UInt8 → List UInt8
  | [] => []
  | c :: s => if c == endMark || erased (c :: s) then kept s else c :: kept s

/-- What has been read up to each opening of the log, and since the last one, without what was
dropped with a full buffer. -/
def windows : State → List UInt8 → List Round → List (List UInt8) × List UInt8
  | _, held, [] => ([], held)
  | s, held, r :: rounds =>
    let held := if bufferSize ≤ s.pos then [] else held
    if r.opens then ((held ++ r.chunk) :: (windows (s.step r) [] rounds).1, (windows (s.step r) [] rounds).2)
    else windows (s.step r) (held ++ r.chunk) rounds

/-- The log when it has been opened in one of the rounds. -/
def logged (truncate : Bool) (log : List UInt8) (windows : List (List UInt8)) : List UInt8 :=
  (if truncate && !windows.isEmpty then [] else log) ++ (windows.map kept).flatten

/-- Whether a byte before others is an end mark, or a carriage return before something else than a newline. -/
def marks (c : UInt8) (s : List UInt8) : Bool :=
  c == endMark || c == carriageReturn && s.head? != some newline

def marked : List UInt8 → Bool
  | [] => false
  | c :: s => marks c s || marked s

/-- What is left of bytes when the one behind them is looked at. -/
def passByte (acc : List UInt8) (c : UInt8) (s : List UInt8) : List UInt8 :=
  if c = endMark then acc
  else if c = carriageReturn ∧ s.head? ≠ some newline then acc.rdropWhile (· ≠ newline)
  else acc ++ [c]

/-- What is left of bytes when the ones behind them are looked at. -/
def pass : List UInt8 → List UInt8 → List UInt8
  | acc, [] => acc
  | acc, c :: s => pass (passByte acc c s) s

/-- The read does not fill the buffer and does not end in a carriage return, and when bytes are
removed there is no zero among the bytes that are left. -/
structure SafeRound (s : State) (r : Round) : Prop where
  room : s.start + r.chunk.length < bufferSize
  last : r.chunk.getLast? ≠ some carriageReturn
  zeros : marked r.chunk = true → (0 : UInt8) ∉ pass (contents s.mem.buffer s.start) r.chunk

def Safe : State → List Round → Prop
  | _, [] => True
  | s, r :: rounds => SafeRound s r ∧ Safe (s.step r) rounds

end Statement

section Lists

variable {acc w s : List UInt8} {c : UInt8}

end Lists

section Memory

variable {m : Mem} {s : Pass} {b b' : Nat → UInt8} {front chunk : List UInt8} {i n p x y : Nat}

@[simp] theorem Mem.set_same (m : Mem) (i : Nat) (c : UInt8) : (m.set i c).buffer i = c :=
  Function.update_self _ _ _

theorem Mem.set_other {j : Nat} (h : j ≠ i) (m : Mem) (c : UInt8) : (m.set i c).buffer j = m.buffer j :=
  Function.update_of_ne h _ _

end Memory

section Rounds

variable {s : Pass} {front chunk : List UInt8} {c : UInt8} {n p : Nat}

end Rounds

section Runs

variable {s : State} {r : Round} {w : List UInt8} {rounds : List Round}

/-- The buffer holds what is kept of the bytes `w` that have been read since the log was opened. -/
structure Holds (s : State) (w : List UInt8) : Prop where
  contents : contents s.mem.buffer s.pos = kept w
  last : w.getLast? ≠ some carriageReturn
  room : s.pos < bufferSize
  bounds : ∀ i ∈ s.mem.touched, i < sizeofBuffer

theorem Holds.start (h : Holds s w) : s.start = s.pos := if_neg (by have := h.room; omega)

def progress : List Round := [⟨[97, 13, 98, 10], false⟩, ⟨[99, 4, 100], true⟩]

end Runs

end T2SDE.Btee
