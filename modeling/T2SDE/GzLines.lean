import Mathlib.Algebra.Ring.Nat
import T2SDE.Lib.CString
import T2SDE.Lib.Lines

namespace T2SDE.GzLines

open Text CString

section Functions

/-- What a read of at most so many characters takes of a text: it ends behind a newline. -/
def upTo : Nat → Str → Str
  | 0, _ => []
  | _ + 1, [] => []
  | n + 1, c :: s => if c = '\n' then [c] else c :: upTo n s

/-- The functions of zlib on an open file, with what is still to be read of its contents. -/
structure Zlib where
  File : Type
  rest : File → Str
  gzgets : File → Int → Option Str × File
  gzerror : File → Int
  /-- The error number of a file once nothing was left to read. -/
  atEnd : Int
  gzgets_none : ∀ zf len, rest zf = [] ∨ len < 1 → (gzgets zf len).1 = none ∧ rest (gzgets zf len).2 = rest zf
  gzgets_some : ∀ zf len, rest zf ≠ [] → 2 ≤ len → (gzgets zf len).1 = some (upTo (len - 1).toNat (rest zf)) ∧
    rest (gzgets zf len).2 = (rest zf).drop (upTo (len - 1).toNat (rest zf)).length
  gzerror_end : ∀ zf len, rest zf = [] → gzerror (gzgets zf len).2 = atEnd

/-- `Z_OK` -/
def zOk : Int := 0

/-- The buffer that all iterators share. -/
structure Buffer where
  content : Str
  bufferLength : Nat
  length : Nat

def resetBuffer (b : Buffer) : Buffer := { b with length := 0 }

def extendBufferBySize (minSize bufferLength : Nat) : Nat :=
  if minSize > bufferLength then minSize else bufferLength

def extendBuffer (bufferLength : Nat) : Nat :=
  extendBufferBySize (if bufferLength < 256 then 256 else 2 * bufferLength) bufferLength

def Buffer.extend (b : Buffer) : Buffer := { b with bufferLength := extendBuffer b.bufferLength }

def addToBuffer (b : Buffer) (c : Char) : Buffer :=
  let b := if b.bufferLength = b.length then b.extend else b
  { b with content := b.content.take b.length ++ [c], length := b.length + 1 }

def finishBuffer (b : Buffer) : Buffer := addToBuffer b nul

def bufferFill (b : Buffer) : Nat := b.length

/-- A size as `int`. -/
def toInt (n : Nat) : Int :=
  if n % 4294967296 < 2147483648 then (n % 4294967296 : Nat) else (n % 4294967296 : Nat) - 4294967296

def bufferFree (b : Buffer) : Int := toInt (b.bufferLength - b.length)

/-- What the function returns to the interpreter. -/
inductive Value
  | nil
  | true
  | string (s : Str)
  | iterator
  deriving DecidableEq

/-- The first value of `pushresult`. -/
def pushresult (zlibResult : Int) : Value := if zlibResult = zOk then .true else .nil

/-- The loop over `gzgets`; `none` if the steps do not suffice. -/
def readLoop (z : Zlib) : Nat → z.File → Buffer → Char → Option (z.File × Buffer × Char)
  | 0, _, _, _ => none
  | steps + 1, zf, b, ch =>
    match z.gzgets zf (bufferFree b) with
    | (none, zf) => some (zf, b, ch)
    | (some read, zf) =>
      let content := b.content.take (bufferFill b) ++ (read ++ [nul])
      let l := (strAt content 0).length
      if 0 < l then
        let ch := char content (l - 1)
        if ch ≠ '\n' then readLoop z steps zf (Buffer.extend ⟨content, b.bufferLength, l⟩) ch
        else some (zf, ⟨content.set (l - 1) nul, b.bufferLength, l⟩, ch)
      else if ch ≠ '\n' then readLoop z steps zf ⟨content, b.bufferLength, l⟩ ch
      else some (zf, ⟨content, b.bufferLength, l⟩, ch)

/-- `__gz_lines_iterator`. The `if` in front of `lua_pushstring` has nothing else in it, so without
a newline the value is what lies on top of the stack. -/
def linesIterator (z : Zlib) (zf : z.File) (b : Buffer) (top : Value) : Option (Value × Buffer × z.File) := do
  let b := if b.bufferLength = 0 then b.extend else resetBuffer b
  let (zf, b, ch) ← readLoop z ((z.rest zf).length + 2) zf b nul
  if ch = '\n' ∨ 0 < bufferFill b then
    if ch = '\n' then some (.string (strAt (finishBuffer b).content 0), finishBuffer b, zf)
      else some (top, b, zf)
  else some (pushresult (z.gzerror zf), b, zf)

end Functions

section Purpose

/-- A generic `for`, or calls of the function without arguments. -/
inductive Caller
  | forLoop
  | call

/-- What lies on top of the stack: the control variable of the loop, or the function itself. -/
def Caller.top : Caller → Value → Value
  | forLoop, control => control
  | call, _ => .iterator

/-- What the iterators of other files make of the buffer between two calls. -/
structure Others where
  more : Nat
  content : Str
  length : Nat

def Others.use (o : Others) (b : Buffer) : Buffer :=
  let bufferLength := extendBuffer^[o.more] b.bufferLength
  if bufferLength = 0 then b else ⟨o.content, bufferLength, o.length⟩

/-- So many calls one after the other. -/
def iterate (z : Zlib) (caller : Caller) : Nat → (Nat → Others) → z.File → Buffer → Value →
    Option (List Value)
  | 0, _, _, _, _ => some []
  | n + 1, others, zf, b, control => do
    let (value, b, zf) ← linesIterator z zf ((others 0).use b) (caller.top control)
    let values ← iterate z caller n (fun i => others (i + 1)) zf b value
    some (value :: values)

/-- The values that are due: the lines, and `nil` behind them. -/
def due (content : Str) : List Value := (fileLines content).map .string ++ [.nil]

/-- From the start of the program, with other iterators in between, the lines of the file are iterated. -/
def Yields (z : Zlib) (caller : Caller) (others : Nat → Others) (zf : z.File) : Prop :=
  iterate z caller (due (z.rest zf)).length others zf ⟨[], 0, 0⟩ .nil = some (due (z.rest zf))

/-- The length of the buffer when it is read into. -/
def atCall (more bufferLength : Nat) : Nat :=
  if extendBuffer^[more] bufferLength = 0 then 256 else extendBuffer^[more] bufferLength

/-- The length of the buffer when so many characters fit and a NUL. -/
def sized (n : Nat) (bufferLength : Nat) : Nat :=
  if n < bufferLength ∨ bufferLength = 0 then bufferLength else sized n (2 * bufferLength)
termination_by n + 1 - bufferLength

/-- No length is negative as `int`, neither that of a line nor that of the buffer where one is read. -/
def Fits : (Nat → Others) → Nat → List Str → Prop
  | _, _, [] => True
  | others, bufferLength, line :: lines => atCall (others 0).more bufferLength < 2147483648 ∧
    line.length + 1 < 2147483648 ∧
      Fits (fun i => others (i + 1)) (sized (line.length + 1) (atCall (others 0).more bufferLength)) lines

end Purpose

section Lengths

variable {n c m : Nat}

/-- A length of the buffer when it is in use. -/
def IsLength (c : Nat) : Prop := ∃ m, c = 256 * 2 ^ m

theorem IsLength.le (h : IsLength c) : 256 ≤ c := by
  obtain ⟨m, rfl⟩ := h
  have hpos := Nat.two_pow_pos m
  omega

theorem IsLength.double (h : IsLength c) : IsLength (2 * c) := by
  obtain ⟨m, rfl⟩ := h
  exact ⟨m + 1, by rw [Nat.pow_succ]; omega⟩

theorem IsLength.extend (h : IsLength c) : extendBuffer c = 2 * c := by
  have hle := h.le
  have hsize : (if c < 256 then 256 else 2 * c) = 2 * c := if_neg (by omega)
  rw [extendBuffer, hsize, extendBufferBySize, if_pos (by omega)]

/-- The lengths are doubled, so they keep away from each other. -/
theorem IsLength.gap (h : IsLength c) {k : Nat} (hlt : c < 256 * 2 ^ (k + 1)) : c ≤ 256 * 2 ^ k := by
  obtain ⟨m, rfl⟩ := h
  have hpow := (Nat.pow_lt_pow_iff_right (a := 2) (by omega)).mp (Nat.lt_of_mul_lt_mul_left hlt)
  exact Nat.mul_le_mul_left 256 (Nat.pow_le_pow_right (by omega) (by omega))

theorem IsLength.int (h : IsLength c) (hge : ¬c < 2147483648) : toInt c < 1 := by
  obtain ⟨m, rfl⟩ := h
  rw [toInt]
  by_cases hm : m = 23
  · subst hm
    decide
  · have hle : 24 ≤ m := by
      by_contra hlt
      have hpow := Nat.pow_le_pow_right (n := 2) (by omega) (show m ≤ 22 by omega)
      omega
    obtain ⟨j, rfl⟩ := Nat.exists_eq_add_of_le hle
    have hzero : 256 * 2 ^ (24 + j) % 4294967296 = 0 := by
      rw [Nat.pow_add, ← Nat.mul_assoc]
      exact Nat.mul_mod_right 4294967296 (2 ^ j)
    rw [hzero]
    decide

theorem toInt_of_lt (h : n < 2147483648) : toInt n = n := by
  rw [toInt, Nat.mod_eq_of_lt (by omega), if_pos h]

theorem IsLength.iterate (h : IsLength c) (m : Nat) : IsLength (extendBuffer^[m] c) := by
  induction m generalizing c with
  | zero => exact h
  | succ m ih =>
    refine ih ?_
    rw [h.extend]
    exact h.double

theorem extendBuffer_iterate (h : c = 0 ∨ IsLength c) (m : Nat) :
    extendBuffer^[m] c = 0 ∨ IsLength (extendBuffer^[m] c) := by
  rcases h with rfl | h
  · cases m with
    | zero => exact .inl rfl
    | succ m => exact .inr (IsLength.iterate ⟨0, rfl⟩ m)
  · exact .inr (h.iterate m)

theorem isLength_atCall (h : c = 0 ∨ IsLength c) (more : Nat) : IsLength (atCall more c) := by
  rw [atCall]
  split
  next => exact ⟨0, rfl⟩
  next hne => exact (extendBuffer_iterate h more).resolve_left hne

theorem sized_of_lt (h : n < c) : sized n c = c := by
  rw [sized, if_pos (.inl h)]

theorem sized_of_le (h : c ≤ n) (hc : 0 < c) : sized n c = sized n (2 * c) := by
  rw [sized, if_neg (by omega)]

end Lengths

section Reads

variable {n : Nat} {u s d line : Str}

theorem upTo_line (hu : '\n' ∉ u) (hlen : u.length < n) (s : Str) :
    upTo n (u ++ '\n' :: s) = u ++ ['\n'] := by
  induction u generalizing n with
  | nil =>
    obtain ⟨n, rfl⟩ := Nat.exists_eq_succ_of_ne_zero (Nat.ne_of_gt hlen)
    rw [List.nil_append, upTo, if_pos rfl]
    rfl
  | cons c u ih =>
    rw [List.mem_cons, not_or] at hu
    rw [List.length_cons] at hlen
    obtain ⟨n, rfl⟩ := Nat.exists_eq_succ_of_ne_zero (show n ≠ 0 by omega)
    rw [List.cons_append, upTo, if_neg (Ne.symm hu.1), ih hu.2 (by omega)]
    rfl

theorem upTo_free (hd : '\n' ∉ d.take n) : upTo n d = d.take n := by
  induction d generalizing n with
  | nil =>
    cases n with
    | zero => rfl
    | succ n => rfl
  | cons c d ih =>
    cases n with
    | zero => rfl
    | succ n =>
      rw [List.take_succ_cons, List.mem_cons, not_or] at hd
      rw [upTo, if_neg (Ne.symm hd.1), ih hd.2, List.take_succ_cons]

theorem strAt_nul (hs : nul ∉ s) (t : Str) : strAt (s ++ nul :: t) 0 = s := strAt_of [] t hs

/-- What the buffer holds of a line, and how long it is. -/
structure Ready (b : Buffer) (line : Str) : Prop where
  text : b.content.take b.length = line
  length : b.length = line.length
  free : nul ∉ line
  isLength : IsLength b.bufferLength
  room : line = [] ∧ b.bufferLength < 2147483648 ∨ line ≠ [] ∧ 2 * (line.length + 1) = b.bufferLength

/-- The room in the buffer is positive as `int`. -/
theorem Ready.free_eq {b : Buffer} (h : Ready b line) (hle : b.bufferLength ≤ 2147483648) :
    bufferFree b = (b.bufferLength - line.length : Nat) ∧ 2 ≤ bufferFree b ∧
      line.length + 1 < b.bufferLength ∧ b.bufferLength - line.length < 2147483648 := by
  have hge := h.isLength.le
  have hroom : line.length + 1 < b.bufferLength ∧ b.bufferLength - line.length < 2147483648 := by
    rcases h.room with ⟨rfl, hlt⟩ | ⟨hne, heq⟩
    · rw [List.length_nil]
      omega
    · have hpos := List.length_pos_iff.mpr hne
      omega
  rw [bufferFree, h.length, toInt_of_lt hroom.2]
  exact ⟨rfl, by omega, hroom⟩

/-- What a read that returns something does to the buffer. -/
theorem strAt_read {b : Buffer} (h : Ready b line) (hs : nul ∉ s) :
    strAt (b.content.take (bufferFill b) ++ (s ++ [nul])) 0 = line ++ s := by
  rw [bufferFill, h.text, ← List.append_assoc]
  refine strAt_nul (fun hmem => ?_) []
  rcases List.mem_append.mp hmem with hline | hread
  · exact h.free hline
  · exact hs hread

theorem char_last (w : Str) (c : Char) (t : Str) : char (w ++ c :: t) ((w ++ [c]).length - 1) = c := by
  rw [List.length_append, List.length_singleton, Nat.add_sub_cancel]
  exact char_at w c t

end Reads

section Loop

variable {z : Zlib} {zf : z.File} {b : Buffer} {ch : Char} {u s d line : Str} {steps : Nat}

/-- What a read does where something is left to read and there is room. -/
theorem gzgets_ready (h : Ready b line) (hle : b.bufferLength ≤ 2147483648) (hne : z.rest zf ≠ [])
    {read : Str}
    (hread : upTo (b.bufferLength - line.length - 1) (z.rest zf) = read) :
    ∃ zf', z.gzgets zf (bufferFree b) = (some read, zf') ∧ z.rest zf' = (z.rest zf).drop read.length := by
  obtain ⟨hfree, htwo, -⟩ := h.free_eq hle
  obtain ⟨hsome, hafter⟩ := z.gzgets_some zf (bufferFree b) hne htwo
  have hsize : (bufferFree b - 1).toNat = b.bufferLength - line.length - 1 := by omega
  rw [hsize, hread] at hsome hafter
  exact ⟨_, Prod.ext hsome rfl, hafter⟩

/-- A read that does not reach the newline. -/
theorem readLoop_more (steps : Nat) (ch : Char) (h : Ready b line) (hle : b.bufferLength ≤ 2147483648)
    (hne : z.rest zf ≠ []) {read : Str}
    (hread : upTo (b.bufferLength - line.length - 1) (z.rest zf) = read) (hsome : read ≠ [])
    (hline : '\n' ∉ read)
    (hnul : nul ∉ read) : ∃ zf' content ch', readLoop z (steps + 1) zf b ch =
      readLoop z steps zf' ⟨content, 2 * b.bufferLength, (line ++ read).length⟩ ch' ∧ ch' ≠ '\n' ∧
      z.rest zf' = (z.rest zf).drop read.length ∧ content.take (line ++ read).length = line ++ read := by
  obtain ⟨zf', hgets, hrest⟩ := gzgets_ready h hle hne hread
  obtain ⟨w, c, hw⟩ := (List.eq_nil_or_concat read).resolve_left hsome
  rw [List.concat_eq_append] at hw
  subst hw
  have hlength : (line ++ (w ++ [c])).length = line.length + w.length + 1 := by simp [Nat.add_assoc]
  have hc : c ≠ '\n' := by
    rintro rfl
    exact hline (by simp)
  have hchar := char_last (line ++ w) c [nul]
  rw [List.append_assoc line w [c]] at hchar
  have hcontent : b.content.take (bufferFill b) ++ (w ++ [c] ++ [nul]) = line ++ w ++ c :: [nul] := by
    rw [bufferFill, h.text]
    simp
  refine ⟨zf', line ++ w ++ c :: [nul], c, ?_, hc, hrest, ?_⟩
  · rw [readLoop, hgets]
    simp only [strAt_read h hnul]
    rw [if_pos (by omega), hcontent, hchar, if_pos hc, Buffer.extend, h.isLength.extend]
  · have hsplit : line ++ w ++ c :: [nul] = (line ++ (w ++ [c])) ++ [nul] := by simp
    rw [hsplit, List.take_left]

theorem Ready.le (h : Ready b line) (hlen : line.length + 1 < 2147483648) : b.bufferLength ≤ 2147483648 := by
  rcases h.room with ⟨-, hlt⟩ | ⟨-, heq⟩
  · omega
  · exact h.isLength.gap (k := 23) (by omega)

/-- The buffer is full but for the NUL, and extended. -/
theorem Ready.more (h : Ready b line) (hle : b.bufferLength ≤ 2147483648) {content read : Str}
    (hcontent : content.take (line ++ read).length = line ++ read) (hnul : nul ∉ read)
    (hlength : read.length = b.bufferLength - line.length - 1) :
    Ready ⟨content, 2 * b.bufferLength, (line ++ read).length⟩ (line ++ read) := by
  obtain ⟨-, -, hroom, -⟩ := h.free_eq hle
  refine ⟨hcontent, rfl, ?_, h.isLength.double, .inr ⟨fun hnil => ?_, ?_⟩⟩
  · rw [List.mem_append, not_or]
    exact ⟨h.free, hnul⟩
  · have hlen := congrArg List.length hnil
    rw [List.length_append, List.length_nil] at hlen
    omega
  · change 2 * ((line ++ read).length + 1) = 2 * b.bufferLength
    rw [List.length_append]
    omega

/-- The line is read till behind its newline. -/
theorem readLoop_line (ch : Char) (h : Ready b line) (hrest : z.rest zf = u ++ '\n' :: s) (hu : '\n' ∉ u)
    (hnul : nul ∉ u)
    (hlen : line.length + u.length + 1 < 2147483648) (hsteps : u.length < steps) :
    ∃ zf', readLoop z steps zf b ch = some (zf', ⟨line ++ u ++ [nul, nul],
      sized (line.length + u.length + 1) b.bufferLength, line.length + u.length + 1⟩, '\n') ∧
      z.rest zf' = s := by
  induction steps generalizing zf b ch line u with
  | zero => omega
  | succ steps ih =>
    have hle := h.le (by omega)
    have hne : z.rest zf ≠ [] := by
      rw [hrest]
      simp
    obtain ⟨-, -, hroom, -⟩ := h.free_eq hle
    by_cases hfit : u.length < b.bufferLength - line.length - 1
    · have hread : upTo (b.bufferLength - line.length - 1) (z.rest zf) = u ++ ['\n'] := by
        rw [hrest, upTo_line hu hfit]
      have hfree : nul ∉ u ++ ['\n'] := by
        rw [List.mem_append, not_or]
        exact ⟨hnul, by decide⟩
      obtain ⟨zf', hgets, hafter⟩ := gzgets_ready h hle hne hread
      have hchar := char_last (line ++ u) '\n' [nul]
      rw [List.append_assoc line u ['\n']] at hchar
      have hcontent : b.content.take (bufferFill b) ++ (u ++ ['\n'] ++ [nul]) =
        line ++ u ++ '\n' :: [nul] := by
        rw [bufferFill, h.text]
        simp
      refine ⟨zf', ?_, ?_⟩
      · rw [readLoop, hgets]
        simp only [strAt_read h hfree]
        have hlength : (line ++ (u ++ ['\n'])).length = line.length + u.length + 1 := by simp [Nat.add_assoc]
        rw [if_pos (by omega), hcontent, hchar, if_neg (by simp), sized_of_lt (by omega), hlength,
          Nat.add_sub_cancel, ← List.length_append, write_at]
      · rw [hafter, hrest]
        simp
    · have hread : upTo (b.bufferLength - line.length - 1) (z.rest zf) =
        u.take (b.bufferLength - line.length - 1) := by
        have htake : (z.rest zf).take (b.bufferLength - line.length - 1) =
          u.take (b.bufferLength - line.length - 1) := by
          rw [hrest, List.take_append_of_le_length (by omega)]
        rw [← htake]
        refine upTo_free fun hmem => hu ?_
        rw [htake] at hmem
        exact List.mem_of_mem_take hmem
      have hlength : (u.take (b.bufferLength - line.length - 1)).length =
        b.bufferLength - line.length - 1 := by
        rw [List.length_take]
        omega
      have hfree : nul ∉ u.take (b.bufferLength - line.length - 1) :=
        fun hmem => hnul (List.mem_of_mem_take hmem)
      obtain ⟨zf', content, ch', hloop, -, hafter, hcontent⟩ := readLoop_more steps ch h hle hne hread
        (by rw [← List.length_pos_iff]; omega) (fun hmem => hu (List.mem_of_mem_take hmem)) hfree
      rw [hlength, hrest, List.drop_append_of_le_length (by omega)] at hafter
      have hdrop : (u.drop (b.bufferLength - line.length - 1)).length =
        u.length - (b.bufferLength - line.length - 1) :=
        List.length_drop
      obtain ⟨zf'', hrun, hlast⟩ := ih ch' (h.more hle hcontent hfree hlength) hafter
        (fun hmem => hu (List.mem_of_mem_drop hmem)) (fun hmem => hnul (List.mem_of_mem_drop hmem))
        (by rw [List.length_append]; omega) (by omega)
      have htotal : (line ++ u.take (b.bufferLength - line.length - 1)).length +
          (u.drop (b.bufferLength - line.length - 1)).length + 1 = line.length + u.length + 1 := by
        rw [List.length_append]
        omega
      rw [htotal, List.append_assoc line, List.take_append_drop] at hrun
      refine ⟨zf'', ?_, hlast⟩
      rw [hloop, hrun, sized_of_le (c := b.bufferLength) (by omega) (by omega)]

/-- Without a newline in time, the loop ends with another character. -/
theorem readLoop_top (ch : Char) (steps : Nat) (h : z.rest zf ≠ [] → Ready b line)
    (hlength : b.length = line.length)
    (hcap : IsLength b.bufferLength) (hch : ch ≠ '\n')
    (hsome : line ≠ [] ∨ z.rest zf ≠ []) (hd : '\n' ∉ (z.rest zf).take (2147483647 - line.length))
    (hnul : nul ∉ z.rest zf) (hlen : line.length < 2147483648) (hsteps : (z.rest zf).length < steps) :
    ∃ zf' b' ch', readLoop z steps zf b ch = some (zf', b', ch') ∧ ch' ≠ '\n' ∧ 0 < b'.length ∧
      IsLength b'.bufferLength ∧ (line.length + (z.rest zf).length < 2147483647 → z.rest zf' = []) := by
  induction steps generalizing zf b ch line with
  | zero => omega
  | succ steps ih =>
    by_cases hread : z.rest zf = [] ∨ bufferFree b < 1
    · obtain ⟨hnone, hafter⟩ := z.gzgets_none zf (bufferFree b) hread
      have hgets : z.gzgets zf (bufferFree b) = (none, (z.gzgets zf (bufferFree b)).2) := Prod.ext hnone rfl
      have hend : readLoop z (steps + 1) zf b ch = some ((z.gzgets zf (bufferFree b)).2, b, ch) := by
        rw [readLoop, hgets]
      have hline : line ≠ [] := by
        rintro rfl
        have hne := hsome.resolve_left fun h => h rfl
        have hready := h hne
        obtain ⟨-, htwo, -⟩ := hready.free_eq (hready.le (by decide))
        rcases hread with hnil | hfull
        · exact hne hnil
        · omega
      refine ⟨_, b, ch, hend, hch, ?_, hcap, fun hsize => ?_⟩
      · rw [hlength]
        exact List.length_pos_iff.mpr hline
      · rw [hafter]
        by_contra hne
        have hready := h hne
        obtain ⟨-, htwo, -⟩ := hready.free_eq (hready.le (by omega))
        have hfull := hread.resolve_left hne
        omega
    · rw [not_or] at hread
      have hready := h hread.1
      have hle : b.bufferLength ≤ 2147483648 := by
        by_contra hlarge
        rcases hready.room with ⟨-, hlt⟩ | ⟨-, heq⟩
        · omega
        · have hgap := hready.isLength.gap (k := 23)
          have hroom : b.bufferLength - b.length = 2147483649 := by omega
          rw [bufferFree, hroom] at hread
          exact hread.2 (by decide)
      obtain ⟨-, -, hroom, -⟩ := hready.free_eq hle
      have htake : upTo (b.bufferLength - line.length - 1) (z.rest zf) =
          (z.rest zf).take (b.bufferLength - line.length - 1) := by
        refine upTo_free fun hmem => hd ?_
        exact (List.take_subset_take_left _ (by omega)) hmem
      have hpos := List.length_pos_iff.mpr hread.1
      have hchunk : ((z.rest zf).take (b.bufferLength - line.length - 1)).length =
          min (b.bufferLength - line.length - 1) (z.rest zf).length := List.length_take
      obtain ⟨zf', content, ch', hloop, hch', hafter, hcontent⟩ := readLoop_more steps ch hready hle
        hread.1 htake (by rw [← List.length_pos_iff]; omega)
        (fun hmem => hd ((List.take_subset_take_left _ (by omega)) hmem)) (fun hmem =>
          hnul (List.mem_of_mem_take hmem))
      have hnext : z.rest zf' ≠ [] → b.bufferLength - line.length - 1 < (z.rest zf).length := by
        intro hne
        by_contra hall
        rw [hafter, hchunk, List.drop_eq_nil_of_le (by omega)] at hne
        exact hne rfl
      have hrest : (z.rest zf').length = (z.rest zf).length -
          ((z.rest zf).take (b.bufferLength - line.length - 1)).length := by
        rw [hafter, List.length_drop]
      have hdrop : '\n' ∉ (z.rest zf').take (2147483647 -
          (line ++ (z.rest zf).take (b.bufferLength - line.length - 1)).length) := by
        rw [hafter, List.take_drop, List.length_append]
        refine fun hmem => hd ((List.take_subset_take_left _ (by omega)) (List.mem_of_mem_drop hmem))
      obtain ⟨zf'', b'', ch'', hrun, hend, hfill, hlength', hlast⟩ := ih ch'
        (fun hne => hready.more hle hcontent (fun hmem => hnul (List.mem_of_mem_take hmem))
          (by have hmore := hnext hne; omega))
        rfl hcap.double hch' (.inl fun hnil => by
          have hlen := congrArg List.length hnil; rw [List.length_append, List.length_nil] at hlen; omega)
        hdrop (fun hmem => hnul (List.mem_of_mem_drop (hafter ▸ hmem)))
          (by rw [List.length_append]; omega) (by omega)
      refine ⟨zf'', b'', ch'', hloop.trans hrun, hend, hfill, hlength', fun hsize => hlast ?_⟩
      rw [List.length_append]
      omega

end Loop

section Calls

variable {z : Zlib} {zf : z.File} {b : Buffer} {o : Others} {top : Value} {u s : Str} {n c : Nat}

theorem lt_sized (hc : 0 < c) : n < sized n c := by
  induction c using sized.induct n with
  | case1 c h =>
    rw [sized, if_pos h]
    omega
  | case2 c h ih =>
    rw [sized, if_neg h]
    exact ih (by omega)

theorem isLength_sized (hc : IsLength c) : IsLength (sized n c) := by
  induction c using sized.induct n with
  | case1 c h =>
    rw [sized, if_pos h]
    exact hc
  | case2 c h ih =>
    rw [sized, if_neg h]
    exact ih hc.double

/-- A buffer as it is at the start, or after a call. -/
def Usable (b : Buffer) : Prop := b.bufferLength = 0 ∧ b.length = 0 ∨ IsLength b.bufferLength

/-- The buffer in the hands of the function. -/
def called (o : Others) (b : Buffer) : Buffer :=
  if (o.use b).bufferLength = 0 then (o.use b).extend else resetBuffer (o.use b)

theorem Usable.called (h : Usable b) (o : Others) :
    (called o b).length = 0 ∧ (called o b).bufferLength = atCall o.more b.bufferLength ∧
      IsLength (atCall o.more b.bufferLength) := by
  have hlength : b.bufferLength = 0 ∨ IsLength b.bufferLength := h.imp_left And.left
  have hcap := isLength_atCall hlength o.more
  by_cases hzero : extendBuffer^[o.more] b.bufferLength = 0
  · have huse : o.use b = b := if_pos hzero
    have hsize : atCall o.more b.bufferLength = 256 := if_pos hzero
    rw [GzLines.called, huse]
    rcases h with ⟨hempty, hnone⟩ | h
    · rw [if_pos hempty, hsize, Buffer.extend, hempty]
      exact ⟨hnone, rfl, 0, rfl⟩
    · have hle := (h.iterate o.more).le
      omega
  · have huse : o.use b = ⟨o.content, extendBuffer^[o.more] b.bufferLength, o.length⟩ := if_neg hzero
    have hsize : atCall o.more b.bufferLength = extendBuffer^[o.more] b.bufferLength := if_neg hzero
    rw [GzLines.called, huse, if_neg hzero, hsize]
    exact ⟨rfl, rfl, hsize ▸ hcap⟩

theorem Usable.ready (h : Usable b) (hlt : atCall o.more b.bufferLength < 2147483648) :
    Ready (GzLines.called o b) [] := by
  obtain ⟨hlength, hsize, hlen⟩ := h.called o
  refine ⟨by rw [hlength]; rfl, hlength, List.not_mem_nil, hsize ▸ hlen, .inl ⟨rfl, ?_⟩⟩
  rwa [hsize]

theorem linesIterator_of {zf' : z.File} {b' : Buffer} {ch : Char}
    (h : readLoop z ((z.rest zf).length + 2) zf (called o b) nul = some (zf', b', ch)) :
    linesIterator z zf (o.use b) top = if ch = '\n' ∨ 0 < bufferFill b' then
      if ch = '\n' then some (.string (strAt (finishBuffer b').content 0), finishBuffer b', zf')
      else some (top, b', zf')
    else some (pushresult (z.gzerror zf'), b', zf') := by
  rw [linesIterator]
  change Option.bind (readLoop z ((z.rest zf).length + 2) zf (called o b) nul) _ = _
  rw [h, Option.bind_some]

/-- A line with its newline is returned. -/
theorem call_line (top : Value) (h : Usable b) (hlt : atCall o.more b.bufferLength < 2147483648)
    (hrest : z.rest zf = u ++ '\n' :: s) (hu : '\n' ∉ u) (hnul : nul ∉ u) (hlen : u.length + 1 < 2147483648) :
    ∃ b' zf', linesIterator z zf (o.use b) top = some (.string u, b', zf') ∧
      b'.bufferLength = sized (u.length + 1) (atCall o.more b.bufferLength) ∧ Usable b' ∧ z.rest zf' = s := by
  obtain ⟨-, hsize, hcap⟩ := h.called o
  have hsteps : u.length < (z.rest zf).length + 2 := by
    rw [hrest, List.length_append]
    omega
  obtain ⟨zf', hloop, hafter⟩ := readLoop_line nul (h.ready hlt) hrest hu hnul
    (by rw [List.length_nil]; omega) hsteps
  have hpos := hcap.le
  have hroom := lt_sized (n := u.length + 1) (c := atCall o.more b.bufferLength) (by omega)
  rw [hsize, List.length_nil, Nat.zero_add, List.nil_append] at hloop
  have hfinish : finishBuffer ⟨u ++ [nul, nul], sized (u.length + 1) (atCall o.more b.bufferLength),
    u.length + 1⟩ =
      ⟨u ++ [nul, nul], sized (u.length + 1) (atCall o.more b.bufferLength), u.length + 2⟩ := by
    have hne : ¬sized (u.length + 1) (atCall o.more b.bufferLength) = u.length + 1 := by omega
    have hsplit : u ++ [nul, nul] = (u ++ [nul]) ++ [nul] := (List.append_assoc u [nul] [nul]).symm
    have htake : (u ++ [nul, nul]).take (u.length + 1) = u ++ [nul] := by
      rw [hsplit]
      exact List.take_left' List.length_append
    rw [finishBuffer, addToBuffer]
    simp only [if_neg hne, htake, ← hsplit]
  refine ⟨⟨u ++ [nul, nul], sized (u.length + 1) (atCall o.more b.bufferLength), u.length + 2⟩, zf', ?_, rfl,
    .inr (isLength_sized hcap), hafter⟩
  rw [linesIterator_of hloop, if_pos (.inl rfl), if_pos rfl, hfinish, strAt_nul hnul [nul]]

/-- Without a newline in time, the value is that on top of the stack. -/
theorem call_top (top : Value) (h : Usable b) (hlt : atCall o.more b.bufferLength < 2147483648)
    (hne : z.rest zf ≠ [])
    (hd : '\n' ∉ (z.rest zf).take 2147483647) (hnul : nul ∉ z.rest zf) :
    ∃ b' zf', linesIterator z zf (o.use b) top = some (top, b', zf') ∧ Usable b' ∧
      ((z.rest zf).length < 2147483647 → z.rest zf' = []) := by
  obtain ⟨hlength, hsize, hcap⟩ := h.called o
  obtain ⟨zf', b', ch', hloop, hch, hfill, hsized, hafter⟩ := readLoop_top nul
    ((z.rest zf).length + 2) (fun _ => h.ready hlt) hlength (hsize ▸ hcap) (by decide) (.inr hne) hd hnul
    (by decide) (by omega)
  rw [List.length_nil, Nat.zero_add] at hafter
  refine ⟨b', zf', ?_, .inr hsized, hafter⟩
  rw [linesIterator_of hloop, if_pos (.inr hfill), if_neg hch]

/-- Where nothing is read, the value is that of `pushresult`. -/
theorem call_none (zf : z.File) (top : Value) (h : Usable b)
    (hnone : z.rest zf = [] ∨ ¬atCall o.more b.bufferLength < 2147483648) :
    ∃ code b' zf', linesIterator z zf (o.use b) top = some (pushresult code, b', zf') ∧
      (z.rest zf = [] → code = z.atEnd) := by
  obtain ⟨hlength, hsize, hcap⟩ := h.called o
  have hread : z.rest zf = [] ∨ bufferFree (called o b) < 1 := by
    refine hnone.imp_right fun hge => ?_
    rw [bufferFree, hlength, hsize]
    exact hcap.int hge
  obtain ⟨hgets, -⟩ := z.gzgets_none zf (bufferFree (called o b)) hread
  have hpair : z.gzgets zf (bufferFree (called o b)) = (none, (z.gzgets zf (bufferFree (called o b))).2) :=
    Prod.ext hgets rfl
  refine ⟨z.gzerror (z.gzgets zf (bufferFree (called o b))).2, called o b,
    (z.gzgets zf (bufferFree (called o b))).2, ?_, fun hend => z.gzerror_end zf _ hend⟩
  have hloop : readLoop z ((z.rest zf).length + 2) zf (called o b) nul =
      some ((z.gzgets zf (bufferFree (called o b))).2, called o b, nul) := by
    rw [readLoop, hpair]
  have hfill : ¬(nul = '\n' ∨ 0 < bufferFill (called o b)) := by
    rw [bufferFill, hlength]
    decide
  rw [linesIterator_of hloop, if_neg hfill]

end Calls

section Runs

variable {z : Zlib} {caller : Caller} {others : Nat → Others} {zf : z.File} {b : Buffer} {control : Value}
    {u s d : Str}
  {n : Nat}

theorem fileLines_last (hd : '\n' ∉ d) (hne : d ≠ []) : fileLines d = [d] := by
  induction d with
  | nil => exact absurd rfl hne
  | cons c d ih =>
    rw [List.mem_cons, not_or] at hd
    rw [fileLines_cons (Ne.symm hd.1)]
    by_cases hnil : d = []
    · rw [hnil]
      rfl
    · rw [ih hd.2 hnil]
      rfl

theorem terminated_line (u s : Str) : Terminated (u ++ '\n' :: s) ↔ Terminated s := by
  rw [Terminated, Terminated, List.getLast?_append, List.getLast?_cons]
  cases s.getLast? with
  | none => simp
  | some c => simp

theorem not_terminated (hd : '\n' ∉ d) (hne : d ≠ []) : ¬Terminated d := by
  intro h
  have hlast := h _ (List.getLast?_eq_some_getLast hne)
  exact hd (hlast ▸ List.getLast_mem hne)

theorem due_line (hu : '\n' ∉ u) (s : Str) : due (u ++ '\n' :: s) = .string u :: due s := by
  rw [due, fileLines_line hu, List.map_cons]
  rfl

/-- The values of a run are those of its calls. -/
theorem iterate_of {value value' : Value} {values : List Value} {b' : Buffer} {zf' : z.File}
    (h : linesIterator z zf ((others 0).use b) (caller.top control) = some (value', b', zf')) :
    iterate z caller (n + 1) others zf b control = some (value :: values) ↔
      value' = value ∧ iterate z caller n (fun i => others (i + 1)) zf' b' value' = some values := by
  rw [iterate]
  change Option.bind (linesIterator z zf ((others 0).use b) (caller.top control)) _ = _ ↔ _
  rw [h, Option.bind_some]
  change Option.bind (iterate z caller n (fun i => others (i + 1)) zf' b' value') _ = _ ↔ _
  cases iterate z caller n (fun i => others (i + 1)) zf' b' value' with
  | none => simp
  | some values' => simp

/-- The last line is that of the call before, as far as the loop has had one. -/
def Repeated : Value → List Str → Prop
  | _, [] => False
  | control, [line] => control = .string line
  | _, line :: next :: lines => Repeated (.string line) (next :: lines)

theorem repeated_string (first : Str) (lines : List Str) : Repeated (.string first) lines ↔
    ∃ front line, first :: lines = front ++ [line, line] := by
  induction lines generalizing first with
  | nil =>
    refine iff_of_false id fun ⟨front, line, h⟩ => ?_
    have hlen := congrArg List.length h
    rw [List.length_append, List.length_singleton, List.length_cons, List.length_singleton] at hlen
    omega
  | cons next lines ih =>
    cases lines with
    | nil =>
      constructor
      · intro h
        obtain rfl : first = next := Value.string.inj h
        exact ⟨[], first, rfl⟩
      · rintro ⟨front, line, h⟩
        obtain ⟨rfl, hpair⟩ := List.append_inj' ((List.nil_append _).trans h) rfl
        rw [List.cons.injEq, List.cons.injEq] at hpair
        exact congrArg Value.string (hpair.1.trans hpair.2.1.symm)
    | cons third lines =>
      refine (ih next).trans ⟨?_, ?_⟩
      · rintro ⟨front, line, h⟩
        exact ⟨first :: front, line, congrArg (first :: ·) h⟩
      · rintro ⟨front, line, h⟩
        cases front with
        | nil =>
          have hlen := congrArg List.length h
          simp at hlen
        | cons w front => exact ⟨front, line, (List.cons.inj h).2⟩

theorem repeated_nil (lines : List Str) : Repeated .nil lines ↔ ∃ front line,
    lines = front ++ [line, line] := by
  cases lines with
  | nil => exact iff_of_false id fun ⟨front, line, h⟩ => by simp at h
  | cons first lines =>
    refine Iff.trans ?_ (repeated_string first lines)
    cases lines with
    | nil => exact iff_of_false (fun h => nomatch h) id
    | cons next lines => exact Iff.rfl

theorem top_eq {line : Str} : caller.top control = .string line ↔
    caller = .forLoop ∧ control = .string line := by
  cases caller with
  | forLoop => exact (and_iff_right rfl).symm
  | call => exact iff_of_false (fun h => nomatch h) fun h => nomatch h.1

theorem pushresult_nil {code : Int} : pushresult code = .nil ↔ code ≠ zOk := by
  rw [pushresult]
  split
  next h => simp [h]
  next h => simp [h]

theorem pushresult_ne (code : Int) (line : Str) : pushresult code ≠ .string line := by
  rw [pushresult]
  split
  · exact nofun
  · exact nofun

/-- Behind the last line. -/
theorem iterate_end (caller : Caller) (others : Nat → Others) (control : Value) (h : Usable b)
    (hrest : z.rest zf = []) :
    iterate z caller 1 others zf b control = some [.nil] ↔ z.atEnd ≠ zOk := by
  obtain ⟨code, b', zf', hcall, hcode⟩ := call_none (o := others 0) zf (caller.top control) h (.inl hrest)
  rw [iterate_of hcall, pushresult_nil, hcode hrest, and_iff_left]
  rfl

theorem iterate_blocked (h : Usable b) (hge : ¬atCall (others 0).more b.bufferLength < 2147483648)
    (line : Str)
    (values : List Value) : iterate z caller (n + 1) others zf b control ≠ some (.string line :: values) := by
  obtain ⟨code, b', zf', hcall, -⟩ := call_none zf (caller.top control) h (.inr hge)
  rw [Ne, iterate_of hcall]
  exact fun hvalue => pushresult_ne code line hvalue.1

theorem iterate_top (caller : Caller) (control : Value) (h : Usable b)
    (hlt : atCall (others 0).more b.bufferLength < 2147483648) (hne : z.rest zf ≠ [])
    (hd : '\n' ∉ (z.rest zf).take 2147483647) (hnul : nul ∉ z.rest zf) (line : Str) (values : List Value) :
    ∃ b' zf', Usable b' ∧ ((z.rest zf).length < 2147483647 → z.rest zf' = []) ∧
      (iterate z caller (n + 1) others zf b control = some (.string line :: values) ↔
        (caller = .forLoop ∧ control = .string line) ∧
          iterate z caller n (fun i => others (i + 1)) zf' b' (caller.top control) = some values) := by
  obtain ⟨b', zf', hcall, husable, hafter⟩ := call_top (caller.top control) h hlt hne hd hnul
  exact ⟨b', zf', husable, hafter, (iterate_of hcall).trans (and_congr_left fun _ => top_eq)⟩

/-- The last line, without a newline. -/
theorem iterate_last (caller : Caller) (others : Nat → Others) (h : Usable b)
    (hcontrol : ∀ line, control = .string line → line.length + 1 < 2147483648)
    (hnul : nul ∉ z.rest zf) (hd : '\n' ∉ z.rest zf) (hne : z.rest zf ≠ []) :
    iterate z caller 2 others zf b control = some [.string (z.rest zf), .nil] ↔
      Fits others b.bufferLength [z.rest zf] ∧ (caller = .forLoop ∧ control = .string (z.rest zf)) ∧
      z.atEnd ≠ zOk := by
  rw [Fits, Fits, and_true]
  by_cases hlt : atCall (others 0).more b.bufferLength < 2147483648
  · obtain ⟨b', zf', husable, hafter, hiff⟩ := iterate_top (n := 1) caller control h hlt hne
      (fun hmem => hd (List.mem_of_mem_take hmem)) hnul (z.rest zf) [.nil]
    rw [hiff]
    constructor
    · rintro ⟨hsame, hrun⟩
      have hsize := hcontrol _ hsame.2
      exact ⟨⟨hlt, hsize⟩, hsame, (iterate_end caller _ _ husable (hafter (by omega))).mp hrun⟩
    · rintro ⟨⟨-, hsize⟩, hsame, hend⟩
      exact ⟨hsame, (iterate_end caller _ _ husable (hafter (by omega))).mpr hend⟩
  · exact iff_of_false (iterate_blocked h hlt _ _) fun hall => hlt hall.1.1

/-- A line that does not fit is not returned. -/
theorem iterate_unfit (h : Usable b) (hcontrol :
    ∀ line, control = .string line → line.length + 1 < 2147483648)
    (hnul : nul ∉ z.rest zf) (hrest : z.rest zf = u ++ '\n' :: s) (hu : '\n' ∉ u)
    (hfit : ¬(atCall (others 0).more b.bufferLength < 2147483648 ∧ u.length + 1 < 2147483648))
    (values : List Value) :
    iterate z caller (n + 1) others zf b control ≠ some (.string u :: values) := by
  by_cases hlt : atCall (others 0).more b.bufferLength < 2147483648
  · have hlong : ¬u.length + 1 < 2147483648 := fun h => hfit ⟨hlt, h⟩
    have htake : '\n' ∉ (z.rest zf).take 2147483647 := by
      rw [hrest, List.take_append_of_le_length (by omega)]
      exact fun hmem => hu (List.mem_of_mem_take hmem)
    have hne : z.rest zf ≠ [] := by
      rw [hrest]
      simp
    obtain ⟨b', zf', -, -, hiff⟩ := iterate_top (n := n) caller control h hlt hne htake hnul u values
    rw [Ne, hiff]
    exact fun hrun => hlong (hcontrol u hrun.1.2)
  · exact iterate_blocked h hlt u values

theorem iterate_iff (others : Nat → Others) (h : Usable b)
    (hcontrol : ∀ line, control = .string line → line.length + 1 < 2147483648)
    (hnul : nul ∉ z.rest zf) :
    iterate z caller (due (z.rest zf)).length others zf b control = some (due (z.rest zf)) ↔
      Fits others b.bufferLength (fileLines (z.rest zf)) ∧
        (Terminated (z.rest zf) ∨ caller = .forLoop ∧ Repeated control (fileLines (z.rest zf))) ∧
        z.atEnd ≠ zOk := by
  generalize hn : (z.rest zf).length = n
  induction n using Nat.strong_induction_on generalizing zf b control others with
  | h n ih =>
    by_cases hnil : z.rest zf = []
    · rw [hnil]
      have hend := iterate_end caller others control h hnil
      exact hend.trans ⟨fun hcode => ⟨trivial, .inl terminated_nil, hcode⟩, fun hall => hall.2.2⟩
    · by_cases hline : '\n' ∈ z.rest zf
      · obtain ⟨u, s, hrest, hu⟩ := List.eq_append_cons_of_mem hline
        rw [hrest, due_line hu, fileLines_line hu, List.length_cons, Fits, terminated_line]
        by_cases hfit : atCall (others 0).more b.bufferLength < 2147483648 ∧ u.length + 1 < 2147483648
        · have hfree : nul ∉ u := fun hmem => hnul (by rw [hrest]; exact List.mem_append_left _ hmem)
          obtain ⟨b', zf', hcall, hsize, husable, hafter⟩ := call_line (caller.top control) h hfit.1 hrest hu
            hfree hfit.2
          have hshort : (z.rest zf').length < n := by
            rw [← hn, hrest, hafter, List.length_append, List.length_cons]
            omega
          have htail := ih _ hshort (fun i => others (i + 1)) husable
            (fun line hline => by rw [← Value.string.inj hline]; exact hfit.2)
            (fun hmem => hnul
              (by rw [hrest, ← hafter]; exact List.mem_append_right _ (List.mem_cons_of_mem _ hmem))) rfl
          rw [hafter, hsize] at htail
          rw [iterate_of hcall, and_iff_right rfl, htail, and_iff_right hfit.1, and_iff_right hfit.2]
          refine and_congr_right fun _ => and_congr_left fun _ => ?_
          cases hlines : fileLines s with
          | nil =>
            have hs : s = [] := by
              by_contra hne
              exact fileLines_ne_nil hne hlines
            rw [hs]
            exact iff_of_true (.inl terminated_nil) (.inl terminated_nil)
          | cons next lines => exact Iff.rfl
        · exact iff_of_false (iterate_unfit h hcontrol hnul hrest hu hfit _)
            fun hall => hfit ⟨hall.1.1, hall.1.2.1⟩
      · have hlast := iterate_last caller others h hcontrol hnul hline hnil
        rw [due, fileLines_last hline hnil]
        refine hlast.trans (and_congr_right fun _ => and_congr_left fun _ => ?_)
        exact (or_iff_right (not_terminated hline hnil)).symm

/-- A string that a call returns has no NUL, unless it has been on the stack. -/
theorem value_free {top : Value} {line : Str} {b' : Buffer} {zf' : z.File}
    (h : linesIterator z zf b top = some (.string line, b', zf')) : nul ∉ line ∨ top = .string line := by
  rw [linesIterator] at h
  obtain ⟨⟨zf'', b'', ch⟩, -, h⟩ := Option.bind_eq_some_iff.mp h
  change (if ch = '\n' ∨ 0 < bufferFill b'' then if ch = '\n' then
    some (Value.string (strAt (finishBuffer b'').content 0), finishBuffer b'', zf'')
    else some (top, b'', zf'')
    else some (pushresult (z.gzerror zf''), b'', zf'')) = _ at h
  split at h
  · split at h
    · left
      have hline := congrArg Prod.fst (Option.some.inj h)
      obtain rfl := Value.string.inj hline
      intro hmem
      have hall := List.all_eq_true.mp List.all_takeWhile nul hmem
      exact absurd hall (by decide)
    · exact .inr (congrArg Prod.fst (Option.some.inj h))
  · exact absurd (congrArg Prod.fst (Option.some.inj h)) (pushresult_ne _ line)

theorem iterate_free {values : List Value} (hcontrol : ∀ line, control = .string line → nul ∉ line)
    (h : iterate z caller n others zf b control = some values) :
    ∀ line, .string line ∈ values → nul ∉ line := by
  induction n generalizing others zf b control values with
  | zero =>
    obtain rfl := Option.some.inj h
    exact fun line hmem => absurd hmem List.not_mem_nil
  | succ n ih =>
    rw [iterate] at h
    obtain ⟨⟨value, b', zf'⟩, hcall, h⟩ := Option.bind_eq_some_iff.mp h
    obtain ⟨rest, hrun, h⟩ := Option.bind_eq_some_iff.mp h
    obtain rfl := Option.some.inj h
    have hvalue : ∀ line, value = .string line → nul ∉ line := by
      rintro line rfl
      rcases value_free hcall with hfree | htop
      · exact hfree
      · exact hcontrol line (top_eq.mp htop).2
    intro line hmem
    rcases List.mem_cons.mp hmem with heq | hmem
    · exact hvalue line heq.symm
    · exact ih hvalue hrun line hmem

theorem mem_fileLines {c : Char} (hc : c ≠ '\n') (h : c ∈ s) : ∃ line ∈ fileLines s, c ∈ line := by
  induction s with
  | nil => cases h
  | cons d s ih =>
    rcases List.mem_cons.mp h with rfl | h
    · rw [fileLines_cons hc]
      exact ⟨_, List.mem_cons_self, List.mem_cons_self⟩
    · obtain ⟨line, hline, hmem⟩ := ih h
      by_cases hd : d = '\n'
      · subst hd
        exact ⟨line, List.mem_cons_of_mem _ hline, hmem⟩
      · rw [fileLines_cons hd]
        cases hlines : fileLines s with
        | nil =>
          rw [hlines] at hline
          cases hline
        | cons first lines =>
          rw [hlines] at hline
          rcases List.mem_cons.mp hline with rfl | hline
          · exact ⟨_, List.mem_cons_self, List.mem_cons_of_mem d hmem⟩
          · exact ⟨line, List.mem_cons_of_mem _ hline, hmem⟩

theorem Yields.free (h : Yields z caller others zf) : nul ∉ z.rest zf := by
  intro hmem
  obtain ⟨line, hline, hnul⟩ := mem_fileLines (by decide) hmem
  refine iterate_free (fun _ h => by cases h) h line ?_ hnul
  exact List.mem_append_left _ (List.mem_map_of_mem hline)

/-- The lines and then `nil` are what the iterator returns just where the contents have no NUL, all
lengths fit, the last line has its newline or is that in front of it once more for a loop, and zlib
has an error number for the end of the file. -/
theorem yields_iff (z : Zlib) (caller : Caller) (others : Nat → Others) (zf : z.File) :
    Yields z caller others zf ↔
    nul ∉ z.rest zf ∧ Fits others 0 (fileLines (z.rest zf)) ∧
      (Terminated (z.rest zf) ∨
        caller = .forLoop ∧ ∃ lines line, fileLines (z.rest zf) = lines ++ [line, line]) ∧ z.atEnd ≠ zOk := by
  have hstart : Usable ⟨[], 0, 0⟩ := .inl ⟨rfl, rfl⟩
  constructor
  · intro h
    have hall := (iterate_iff others hstart (fun _ h => by cases h) h.free).mp h
    rw [repeated_nil] at hall
    exact ⟨h.free, hall⟩
  · rintro ⟨hfree, hall⟩
    rw [← repeated_nil] at hall
    exact (iterate_iff others hstart (fun _ h => by cases h) hfree).mpr hall

end Runs

section Samples

/-- A library that knows the contents, with `Z_STREAM_END` behind them. -/
def gzgetsSample (content : Str) (len : Int) : Option Str × Str :=
  if content = [] ∨ len < 1 then (none, content)
  else (some (upTo (len - 1).toNat content), content.drop (upTo (len - 1).toNat content).length)

theorem gzgetsSample_none (content : Str) (len : Int) (h : content = [] ∨ len < 1) :
    (gzgetsSample content len).1 = none ∧ (gzgetsSample content len).2 = content := by
  rw [gzgetsSample, if_pos h]
  exact ⟨rfl, rfl⟩

theorem gzgetsSample_some (content : Str) (len : Int) (hne : content ≠ []) (hlen : 2 ≤ len) :
    (gzgetsSample content len).1 = some (upTo (len - 1).toNat content) ∧
      (gzgetsSample content len).2 = content.drop (upTo (len - 1).toNat content).length := by
  have hsome : ¬(content = [] ∨ len < 1) := by
    rw [not_or]
    exact ⟨hne, by omega⟩
  rw [gzgetsSample, if_neg hsome]
  exact ⟨rfl, rfl⟩

def streamEnd : Zlib where
  File := Str
  rest := id
  gzgets := gzgetsSample
  gzerror _ := 1
  atEnd := 1
  gzgets_none := gzgetsSample_none
  gzgets_some := gzgetsSample_some
  gzerror_end _ _ _ := rfl

/-- The last line is not returned, the one in front of it is returned again. -/
theorem last_line_lost : iterate streamEnd .forLoop 3 (fun _ => ⟨0, [], 0⟩) "a\nb".toList ⟨[], 0, 0⟩ .nil =
      some [.string ['a'], .string ['a'], .nil] ∧
    ¬Yields streamEnd .forLoop (fun _ => ⟨0, [], 0⟩) "a\nb".toList := by
  have hrun : iterate streamEnd .forLoop 3 (fun _ => ⟨0, [], 0⟩) "a\nb".toList ⟨[], 0, 0⟩ .nil =
      some [.string ['a'], .string ['a'], .nil] := by decide +kernel
  refine ⟨hrun, fun h => ?_⟩
  exact absurd (hrun.symm.trans h) (by decide)

end Samples

end T2SDE.GzLines
