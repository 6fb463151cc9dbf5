import Mathlib.Data.UInt
import Mathlib.Tactic.IntervalCases
import T2SDE.Lib.BlockStream

namespace T2SDE.MD5

open BlockStream Memory

section Program

def rotateLeft (x n : UInt32) : UInt32 := (x <<< n) ||| (x >>> (32 - n))

def F (x y z : UInt32) : UInt32 := z ^^^ (x &&& (y ^^^ z))

def G (x y z : UInt32) : UInt32 := y ^^^ (z &&& (x ^^^ y))

def H (x y z : UInt32) : UInt32 := x ^^^ y ^^^ z

def I (x y z : UInt32) : UInt32 := y ^^^ (x ||| ~~~z)

structure Registers where
  a : UInt32
  b : UInt32
  c : UInt32
  d : UInt32
  deriving DecidableEq

/-- The register that an operation assigns; its other arguments follow from it. -/
inductive Register
  | a
  | b
  | c
  | d

inductive Mix
  | f
  | g
  | h
  | i

def Mix.run : Mix → UInt32 → UInt32 → UInt32 → UInt32
  | f => F
  | g => G
  | h => H
  | i => I

/-- A line of `__MD5Transform`: its register, the index into `x`, the rotation and the constant. -/
structure Operation where
  mix : Mix
  target : Register
  k : Nat
  s : UInt32
  ac : UInt32

def FF : Register → Nat → UInt32 → UInt32 → Operation := .mk .f

def GG : Register → Nat → UInt32 → UInt32 → Operation := .mk .g

def HH : Register → Nat → UInt32 → UInt32 → Operation := .mk .h

def II : Register → Nat → UInt32 → UInt32 → Operation := .mk .i

def Operation.word (o : Operation) (x : Nat → UInt32) (a b c d : UInt32) : UInt32 :=
  rotateLeft (a + (o.mix.run b c d + x o.k + o.ac)) o.s + b

def Operation.run (x : Nat → UInt32) (r : Registers) (o : Operation) : Registers :=
  match o.target with
  | .a => { r with a := o.word x r.a r.b r.c r.d }
  | .d => { r with d := o.word x r.d r.a r.b r.c }
  | .c => { r with c := o.word x r.c r.d r.a r.b }
  | .b => { r with b := o.word x r.b r.c r.d r.a }

def operations : List Operation :=
  [FF .a 0 7 0xd76aa478, FF .d 1 12 0xe8c7b756, FF .c 2 17 0x242070db, FF .b 3 22 0xc1bdceee,
    FF .a 4 7 0xf57c0faf, FF .d 5 12 0x4787c62a, FF .c 6 17 0xa8304613, FF .b 7 22 0xfd469501,
    FF .a 8 7 0x698098d8, FF .d 9 12 0x8b44f7af, FF .c 10 17 0xffff5bb1, FF .b 11 22 0x895cd7be,
    FF .a 12 7 0x6b901122, FF .d 13 12 0xfd987193, FF .c 14 17 0xa679438e, FF .b 15 22 0x49b40821,
    GG .a 1 5 0xf61e2562, GG .d 6 9 0xc040b340, GG .c 11 14 0x265e5a51, GG .b 0 20 0xe9b6c7aa,
    GG .a 5 5 0xd62f105d, GG .d 10 9 0x02441453, GG .c 15 14 0xd8a1e681, GG .b 4 20 0xe7d3fbc8,
    GG .a 9 5 0x21e1cde6, GG .d 14 9 0xc33707d6, GG .c 3 14 0xf4d50d87, GG .b 8 20 0x455a14ed,
    GG .a 13 5 0xa9e3e905, GG .d 2 9 0xfcefa3f8, GG .c 7 14 0x676f02d9, GG .b 12 20 0x8d2a4c8a,
    HH .a 5 4 0xfffa3942, HH .d 8 11 0x8771f681, HH .c 11 16 0x6d9d6122, HH .b 14 23 0xfde5380c,
    HH .a 1 4 0xa4beea44, HH .d 4 11 0x4bdecfa9, HH .c 7 16 0xf6bb4b60, HH .b 10 23 0xbebfbc70,
    HH .a 13 4 0x289b7ec6, HH .d 0 11 0xeaa127fa, HH .c 3 16 0xd4ef3085, HH .b 6 23 0x04881d05,
    HH .a 9 4 0xd9d4d039, HH .d 12 11 0xe6db99e5, HH .c 15 16 0x1fa27cf8, HH .b 2 23 0xc4ac5665,
    II .a 0 6 0xf4292244, II .d 7 10 0x432aff97, II .c 14 15 0xab9423a7, II .b 5 21 0xfc93a039,
    II .a 12 6 0x655b59c3, II .d 3 10 0x8f0ccc92, II .c 10 15 0xffeff47d, II .b 1 21 0x85845dd1,
    II .a 8 6 0x6fa87e4f, II .d 15 10 0xfe2ce6e0, II .c 6 15 0xa3014314, II .b 13 21 0x4e0811a1,
    II .a 4 6 0xf7537e82, II .d 11 10 0xbd3af235, II .c 2 15 0x2ad7d2bb, II .b 9 21 0xeb86d391]

/-- The word at an index of the block, its lowest byte first. -/
def word (block : List UInt8) (k : Nat) : UInt32 :=
  (block.getD (4 * k) 0).toUInt32 ||| (block.getD (4 * k + 1) 0).toUInt32 <<< 8 |||
    (block.getD (4 * k + 2) 0).toUInt32 <<< 16 ||| (block.getD (4 * k + 3) 0).toUInt32 <<< 24

/-- One turn of the loop of `__MD5Transform`. -/
def transformBlock (state : Registers) (block : List UInt8) : Registers :=
  let r := operations.foldl (Operation.run (word block)) state
  ⟨r.a + state.a, r.b + state.b, r.c + state.c, r.d + state.d⟩

def md5Transform (state : Registers) (input : List UInt8) (repetitions : Nat) : Registers :=
  absorb transformBlock 64 repetitions state input

structure MD5Ctx where
  state : Registers
  count0 : UInt32
  count1 : UInt32
  buffer : List UInt8

def start : Registers := ⟨0x67452301, 0xefcdab89, 0x98badcfe, 0x10325476⟩

/-- What stands in the buffer of a context on the stack. -/
abbrev CtxMemory := {buffer : List UInt8 // buffer.length = 64}

def md5Init (memory : CtxMemory) : MD5Ctx := ⟨start, 0, 0, memory⟩

def MD5Ctx.byteIndex (c : MD5Ctx) : Nat := ((c.count0 >>> 3) &&& 0x3F).toNat

/-- The count behind an update. The low word is compared with all the bits of a `size_t`. -/
def MD5Ctx.counted (c : MD5Ctx) (inputBytes : UInt64) : UInt32 × UInt32 :=
  let count0 := c.count0 + (inputBytes <<< 3).toUInt32
  let carried := if count0.toUInt64 < inputBytes <<< 3 then c.count1 + 1 else c.count1
  (count0, carried + (inputBytes >>> (32 - 3)).toUInt32)

def md5Update (c : MD5Ctx) (input : List UInt8) : MD5Ctx :=
  let count := c.counted (UInt64.ofNat input.length)
  let partLen := 64 - c.byteIndex
  if partLen ≤ input.length then
    let filled := overwrite c.buffer c.byteIndex (input.take partLen)
    let len := (input.length - partLen) / 64
    { state := md5Transform (md5Transform c.state filled 1) (input.drop partLen) len
      count0 := count.1
      count1 := count.2
      buffer := overwrite filled 0 (input.drop (partLen + 64 * len)) }
  else
    { c with
      count0 := count.1
      count1 := count.2
      buffer := overwrite c.buffer c.byteIndex input }

/-- The bytes of a word in memory, the lowest first. -/
def bytes (w : UInt32) : List UInt8 :=
  [w.toUInt8, (w >>> 8).toUInt8, (w >>> 16).toUInt8, (w >>> 24).toUInt8]

def finalBlock : List UInt8 := 0x80 :: List.replicate 63 0

def MD5Ctx.bits (c : MD5Ctx) : List UInt8 := bytes c.count0 ++ bytes c.count1

def md5Final (c : MD5Ctx) : List UInt8 :=
  let finalBlockLength := (if c.byteIndex < 56 then 56 else 120) - c.byteIndex
  let state := (md5Update (md5Update c (finalBlock.take finalBlockLength)) c.bits).state
  bytes state.a ++ bytes state.b ++ bytes state.c ++ bytes state.d

/-- What `lmd5` is given: a string, or a file as `fread` returns it, in pieces of at most 4096 bytes. -/
inductive Input
  | message (text : List UInt8)
  | file (pieces : List {piece : List UInt8 // piece ≠ [] ∧ piece.length ≤ 4096})

def Input.pieces : Input → List (List UInt8)
  | message text => [text]
  | file pieces => pieces.map Subtype.val

/-- The context behind the updates of `lmd5`. -/
def hashed (memory : CtxMemory) (pieces : List (List UInt8)) : MD5Ctx := pieces.foldl md5Update (md5Init memory)

def lmd5 (memory : CtxMemory) (input : Input) : List UInt8 := md5Final (hashed memory input.pieces)

/-- A byte by the format `%02x`. -/
def hex (c : UInt8) : List Char := [Nat.digitChar (c.toNat / 16), Nat.digitChar (c.toNat % 16)]

/-- `md5.sum` -/
def sum (memory : CtxMemory) (input : Input) : List Char := (lmd5 memory input).flatMap hex

end Program

section Purpose

/-- The function of a step, by the round it is in. -/
def mixed (i : Nat) (x y z : UInt32) : UInt32 :=
  if i < 16 then (x &&& y) ||| (~~~x &&& z)
  else if i < 32 then (x &&& z) ||| (y &&& ~~~z)
  else if i < 48 then x ^^^ y ^^^ z
  else y ^^^ (x ||| ~~~z)

/-- The word of the block that a step takes. -/
def index (i : Nat) : Nat :=
  if i < 16 then i else if i < 32 then (5 * i + 1) % 16 else if i < 48 then (3 * i + 5) % 16 else 7 * i % 16

/-- The rotations of each round, which it goes through four times. -/
def shifts : List (List UInt32) := [[7, 12, 17, 22], [5, 9, 14, 20], [4, 11, 16, 23], [6, 10, 15, 21]]

def shift (i : Nat) : UInt32 := (shifts.getD (i / 16) []).getD (i % 4) 0

def constants : List UInt32 := operations.map Operation.ac

/-- A step of the algorithm: the registers move on by one, and the new word is put in the second. -/
def turn (block : List UInt8) (r : Registers) (i : Nat) : Registers where
  a := r.d
  b := rotateLeft (r.a + (mixed i r.b r.c r.d + word block (index i) + constants.getD i 0)) (shift i) + r.b
  c := r.b
  d := r.c

def compress (state : Registers) (block : List UInt8) : Registers :=
  let r := (List.range 64).foldl (turn block) state
  ⟨r.a + state.a, r.b + state.b, r.c + state.c, r.d + state.d⟩

/-- So many zeros, behind a one bit, leave room for the length in the last block. -/
def zeros (length : Nat) : Nat := (119 - length % 64) % 64

/-- The lowest 64 bits of a number, by bytes with the lowest first. -/
def lengthField (n : Nat) : List UInt8 := (List.range 8).map fun i => UInt8.ofNat (n / 256 ^ i)

/-- A message with the number that is put at its end for its length. -/
def padded (message : List UInt8) (length : Nat) : List UInt8 :=
  message ++ 0x80 :: List.replicate (zeros message.length) 0 ++ lengthField length

/-- The digest of a padded message. -/
def digestOf (message : List UInt8) : List UInt8 :=
  let r := absorb compress 64 (message.length / 64) start message
  bytes r.a ++ bytes r.b ++ bytes r.c ++ bytes r.d

def digest (message : List UInt8) : List UInt8 := digestOf (padded message (8 * message.length))

/-- An update of 2 ^ 29 bytes or more adds a carry to the count; it is one too many where the low word
does not wrap. -/
def slip (before n : Nat) : Nat :=
  if 2 ^ 29 ≤ n ∧ 8 * before % 2 ^ 32 + 8 * n % 2 ^ 32 < 2 ^ 32 then 1 else 0

def slips : Nat → List (List UInt8) → Nat
  | _, [] => 0
  | before, piece :: pieces => slip before piece.length + slips (before + piece.length) pieces

end Purpose

section Rounds

variable {x y z : UInt32}

theorem F_eq (x y z : UInt32) : F x y z = (x &&& y) ||| (~~~x &&& z) := by
  apply UInt32.eq_of_toBitVec_eq
  ext i hi
  simp only [F, UInt32.toBitVec_xor, UInt32.toBitVec_and, UInt32.toBitVec_or, UInt32.toBitVec_not,
    BitVec.getElem_xor, BitVec.getElem_and, BitVec.getElem_or, BitVec.getElem_not]
  cases x.toBitVec[i] <;> cases y.toBitVec[i] <;> cases z.toBitVec[i] <;> rfl

theorem G_eq (x y z : UInt32) : G x y z = (x &&& z) ||| (y &&& ~~~z) := by
  apply UInt32.eq_of_toBitVec_eq
  ext i hi
  simp only [G, UInt32.toBitVec_xor, UInt32.toBitVec_and, UInt32.toBitVec_or, UInt32.toBitVec_not,
    BitVec.getElem_xor, BitVec.getElem_and, BitVec.getElem_or, BitVec.getElem_not]
  cases x.toBitVec[i] <;> cases y.toBitVec[i] <;> cases z.toBitVec[i] <;> rfl

/-- The registers in the order in which an operation takes them. -/
def Register.view : Register → Registers → Registers
  | a, r => r
  | d, r => ⟨r.d, r.a, r.b, r.c⟩
  | c, r => ⟨r.c, r.d, r.a, r.b⟩
  | b, r => ⟨r.b, r.c, r.d, r.a⟩

/-- The register of the next operation. -/
def Register.next : Register → Register
  | a => d
  | d => c
  | c => b
  | b => a

def Register.at (i : Nat) : Register := Register.next^[i] a

def Mix.at (n : Nat) : Mix := if n < 16 then f else if n < 32 then g else if n < 48 then h else i

def operationAt (i : Nat) : Operation := ⟨Mix.at i, Register.at i, index i, shift i, constants.getD i 0⟩

theorem operations_eq : operations = (List.range 64).map operationAt := rfl

theorem mix_at (i : Nat) : (Mix.at i).run = mixed i := by
  funext x y z
  rw [Mix.at, mixed]
  split_ifs
  · exact F_eq x y z
  · exact G_eq x y z
  · rfl
  · rfl

variable {block : List UInt8} {r : Registers}

/-- Seen from the next operation on, the registers have moved on by one. -/
theorem run_view (o : Operation) (x : Nat → UInt32) (r : Registers) :
    o.target.next.view (Operation.run x r o) =
      ⟨(o.target.view r).d, o.word x (o.target.view r).a (o.target.view r).b (o.target.view r).c
        (o.target.view r).d, (o.target.view r).b, (o.target.view r).c⟩ := by
  obtain ⟨mix, target, k, s, ac⟩ := o
  cases target <;> rfl

theorem run_operationAt (i : Nat) (r : Registers) :
    (Register.at (i + 1)).view (Operation.run (word block) r (operationAt i)) =
      turn block ((Register.at i).view r) i := by
  have hnext : Register.at (i + 1) = (operationAt i).target.next := Function.iterate_succ_apply' _ _ _
  rw [hnext, run_view, turn, Operation.word, operationAt, mix_at]

theorem run_range (n : Nat) :
    (Register.at n).view (((List.range n).map operationAt).foldl (Operation.run (word block)) r) =
      (List.range n).foldl (turn block) r := by
  induction n with
  | zero => rfl
  | succ n ih =>
    rw [List.range_succ, List.map_append, List.foldl_append, List.foldl_append, ← ih]
    exact run_operationAt n _

/-- The unrolled rounds are those of the algorithm. -/
theorem transformBlock_eq : transformBlock = compress := by
  funext state block
  have hrun : (Register.at 64).view (((List.range 64).map operationAt).foldl (Operation.run (word block)) state) =
      (List.range 64).foldl (turn block) state := run_range 64
  rw [← operations_eq] at hrun
  have hview (r : Registers) : (Register.at 64).view r = r := rfl
  rw [hview] at hrun
  rw [transformBlock, compress, hrun]

end Rounds

section Count

variable {c : MD5Ctx} {message piece : List UInt8} {pieces : List (List UInt8)}

theorem byteIndex_eq {n : Nat} (h : c.count0.toNat = 8 * n % 2 ^ 32) : c.byteIndex = n % 64 := by
  rw [MD5Ctx.byteIndex, UInt32.toNat_and, UInt32.toNat_shiftRight, h]
  have hmask : (0x3F : UInt32).toNat = 2 ^ 6 - 1 := rfl
  have hshift : (3 : UInt32).toNat % 32 = 3 := rfl
  rw [hmask, hshift, Nat.and_two_pow_sub_one_eq_mod, Nat.shiftRight_eq_div_pow]
  omega

theorem shiftLeft_three {n : Nat} (hn : n < 2 ^ 31) : (UInt64.ofNat n <<< 3).toNat = 8 * n := by
  have hshift : (3 : UInt64).toNat % 64 = 3 := rfl
  have hlength : (UInt64.ofNat n).toNat = n := UInt64.toNat_ofNat_of_lt' (by simp only [UInt64.size]; omega)
  rw [UInt64.toNat_shiftLeft, hshift, hlength, Nat.shiftLeft_eq]
  omega

theorem shiftRight_high {n : Nat} (hn : n < 2 ^ 31) :
    (UInt64.ofNat n >>> (32 - 3)).toUInt32.toNat = n / 2 ^ 29 := by
  have hshift : (32 - 3 : UInt64).toNat % 64 = 29 := rfl
  have hlength : (UInt64.ofNat n).toNat = n := UInt64.toNat_ofNat_of_lt' (by simp only [UInt64.size]; omega)
  rw [UInt64.toNat_toUInt32, UInt64.toNat_shiftRight, hshift, hlength, Nat.shiftRight_eq_div_pow]
  omega

theorem counted_low {n : Nat} (hn : n < 2 ^ 31) :
    (c.counted (UInt64.ofNat n)).1.toNat = (c.count0.toNat + 8 * n) % 2 ^ 32 := by
  rw [MD5Ctx.counted, UInt32.toNat_add, UInt64.toNat_toUInt32, shiftLeft_three hn]
  omega

/-- The high word behind an update of fewer than 2 ^ 31 bytes. -/
theorem counted_high {n : Nat} (hn : n < 2 ^ 31) :
    (c.counted (UInt64.ofNat n)).2.toNat = (c.count1.toNat + (c.count0.toNat + 8 * n) / 2 ^ 32 +
      (if 2 ^ 29 ≤ n ∧ c.count0.toNat + 8 * n % 2 ^ 32 < 2 ^ 32 then 1 else 0)) % 2 ^ 32 := by
  have hlow := counted_low (c := c) hn
  have hword := c.count0.toNat_lt
  have hless : ((c.counted (UInt64.ofNat n)).1.toUInt64 < UInt64.ofNat n <<< 3) ↔
      (c.count0.toNat + 8 * n) % 2 ^ 32 < 8 * n := by
    rw [UInt64.lt_iff_toNat_lt, UInt32.toNat_toUInt64, hlow, shiftLeft_three hn]
  have hcarried : (if (c.counted (UInt64.ofNat n)).1.toUInt64 < UInt64.ofNat n <<< 3 then c.count1 + 1
      else c.count1).toNat = (c.count1.toNat + if (c.count0.toNat + 8 * n) % 2 ^ 32 < 8 * n then 1
      else 0) % 2 ^ 32 := by
    by_cases h : (c.count0.toNat + 8 * n) % 2 ^ 32 < 8 * n
    · rw [if_pos (hless.mpr h), if_pos h, UInt32.toNat_add]
      rfl
    · rw [if_neg (fun hlt => h (hless.mp hlt)), if_neg h, Nat.add_zero, Nat.mod_eq_of_lt c.count1.toNat_lt]
  have hsum : (c.counted (UInt64.ofNat n)).2.toNat =
      ((c.count1.toNat + if (c.count0.toNat + 8 * n) % 2 ^ 32 < 8 * n then 1 else 0) % 2 ^ 32 +
        n / 2 ^ 29) % 2 ^ 32 := by
    rw [← hcarried, ← shiftRight_high hn, ← UInt32.toNat_add]
    rfl
  rw [hsum]
  split_ifs <;> omega

/-- A context that has taken a message, with so many carries too many in its count. -/
structure Taken (c : MD5Ctx) (message : List UInt8) (k : Nat) : Prop where
  blocks : Holds transformBlock 64 start message c.state c.buffer
  low : c.count0.toNat = 8 * message.length % 2 ^ 32
  count : c.count0.toNat + 2 ^ 32 * c.count1.toNat = (8 * message.length + 2 ^ 32 * k) % 2 ^ 64

theorem Taken.init (memory : CtxMemory) : Taken (md5Init memory) [] 0 := ⟨.nil memory.property, rfl, rfl⟩

theorem md5Update_count (c : MD5Ctx) (piece : List UInt8) :
    (md5Update c piece).count0 = (c.counted (UInt64.ofNat piece.length)).1 ∧
    (md5Update c piece).count1 = (c.counted (UInt64.ofNat piece.length)).2 := by
  rw [md5Update]
  split_ifs <;> exact ⟨rfl, rfl⟩

theorem md5Update_short (h : ¬64 - c.byteIndex ≤ piece.length) :
    (md5Update c piece).state = c.state ∧ (md5Update c piece).buffer =
    overwrite c.buffer c.byteIndex piece := by
  rw [md5Update, if_neg h]
  exact ⟨rfl, rfl⟩

theorem md5Update_long (h : 64 - c.byteIndex ≤ piece.length) :
    let partLen := 64 - c.byteIndex
    let filled := overwrite c.buffer c.byteIndex (piece.take partLen)
    let len := (piece.length - partLen) / 64
    (md5Update c piece).state = absorb transformBlock 64 len (absorb transformBlock 64 1 c.state filled)
      (piece.drop partLen) ∧
    (md5Update c piece).buffer = overwrite filled 0 (piece.drop (partLen + 64 * len)) := by
  rw [md5Update, if_pos h]
  exact ⟨rfl, rfl⟩

theorem Taken.update {k : Nat} (h : Taken c message k) (hpiece : piece.length < 2 ^ 31) :
    Taken (md5Update c piece) (message ++ piece) (k + slip message.length piece.length) := by
  have hindex := byteIndex_eq h.low
  have hcount := md5Update_count c piece
  have hlow := counted_low (c := c) hpiece
  have hhigh := counted_high (c := c) hpiece
  refine ⟨?_, ?_, ?_⟩
  · by_cases hlong : 64 - c.byteIndex ≤ piece.length
    · have hblocks := h.blocks.long (by decide) piece (by omega)
      rw [← hindex] at hblocks
      rw [(md5Update_long hlong).1, (md5Update_long hlong).2]
      exact hblocks
    · have hmod := Nat.mod_lt message.length (show 0 < 64 by decide)
      have hblocks := h.blocks.short piece (by omega)
      rw [← hindex] at hblocks
      rw [(md5Update_short hlong).1, (md5Update_short hlong).2]
      exact hblocks
  · rw [hcount.1, hlow, h.low, List.length_append]
    omega
  · have hbefore := h.count
    rw [hcount.1, hcount.2, hlow, hhigh, List.length_append, slip, ← h.low]
    split_ifs <;> omega

theorem taken_foldl {k : Nat} (h : Taken c message k) (hpieces : ∀ piece ∈ pieces, piece.length < 2 ^ 31) :
    Taken (pieces.foldl md5Update c) (message ++ pieces.flatten) (k + slips message.length pieces) := by
  induction pieces generalizing c message k with
  | nil =>
    rw [List.flatten_nil, List.append_nil]
    exact h
  | cons piece pieces ih =>
    have hnext := ih (h.update (hpieces piece List.mem_cons_self))
      fun piece hmem => hpieces piece (List.mem_cons_of_mem _ hmem)
    rw [List.length_append, List.append_assoc, Nat.add_assoc] at hnext
    exact hnext

theorem taken_hashed (memory : CtxMemory) (hpieces : ∀ piece ∈ pieces, piece.length < 2 ^ 31) :
    Taken (hashed memory pieces) pieces.flatten (slips 0 pieces) := by
  have h := taken_foldl (Taken.init memory) hpieces
  rwa [List.nil_append, Nat.zero_add] at h

theorem slip_small {before n : Nat} (hn : n < 2 ^ 29) : slip before n = 0 :=
  if_neg fun h => Nat.not_lt.mpr h.1 hn

theorem slips_small (hpieces : ∀ piece ∈ pieces, piece.length < 2 ^ 29) (before : Nat) :
    slips before pieces = 0 := by
  induction pieces generalizing before with
  | nil => rfl
  | cons piece pieces ih =>
    rw [slips, slip_small (hpieces piece List.mem_cons_self),
      ih fun piece hmem => hpieces piece (List.mem_cons_of_mem _ hmem)]

end Count

section Length

variable {c : MD5Ctx} {message : List UInt8} {k n : Nat} {low high : UInt32}

theorem bytes_eq (w : UInt32) : bytes w = (List.range 4).map fun i => UInt8.ofNat (w.toNat / 256 ^ i) := by
  have hbyte (s : UInt32) : (w >>> s).toUInt8 = UInt8.ofNat (w.toNat / 2 ^ (s.toNat % 32)) := by
    apply UInt8.toNat_inj.mp
    rw [UInt32.toNat_toUInt8, UInt32.toNat_shiftRight, Nat.shiftRight_eq_div_pow, UInt8.toNat_ofNat']
  have hfirst : w.toUInt8 = UInt8.ofNat (w.toNat / 256 ^ 0) := by
    apply UInt8.toNat_inj.mp
    rw [UInt32.toNat_toUInt8, UInt8.toNat_ofNat', pow_zero, Nat.div_one]
  rw [bytes, hbyte, hbyte, hbyte, hfirst]
  rfl

theorem byte_congr {m : Nat} (h : m % 256 = n % 256) : UInt8.ofNat m = UInt8.ofNat n := by
  apply UInt8.toNat_inj.mp
  rw [UInt8.toNat_ofNat', UInt8.toNat_ofNat']
  exact h

/-- Two words are the length field of the number that they stand for. -/
theorem lengthField_eq (hlow : low.toNat = n % 2 ^ 32) (hhigh : high.toNat = n / 2 ^ 32 % 2 ^ 32) :
    bytes low ++ bytes high = lengthField n := by
  rw [bytes_eq, bytes_eq, lengthField, List.range_add (n := 4) (m := 4), List.map_append, List.map_map]
  congr 1
  · refine List.map_congr_left fun i hi => byte_congr ?_
    have hi : i < 4 := List.mem_range.mp hi
    rw [hlow]
    interval_cases i <;> omega
  · refine List.map_congr_left fun i hi => byte_congr ?_
    have hi : i < 4 := List.mem_range.mp hi
    change high.toNat / 256 ^ i % 256 = n / 256 ^ (4 + i) % 256
    rw [hhigh]
    interval_cases i <;> omega

/-- Numbers have the same lowest bytes if they agree modulo the power of 256. -/
theorem bytes_congr {m k : Nat} : (∀ i < k, m / 256 ^ i % 256 = n / 256 ^ i % 256) ↔
    m % 256 ^ k = n % 256 ^ k := by
  constructor
  · intro h
    induction k with
    | zero => rw [pow_zero, Nat.mod_one, Nat.mod_one]
    | succ k ih =>
      rw [Nat.mod_pow_succ, Nat.mod_pow_succ, h k (Nat.lt_succ_self k), ih fun i hi =>
        h i (Nat.lt_succ_of_lt hi)]
  · intro h i hi
    have hdvd : 256 ^ i * 256 ∣ 256 ^ k := pow_dvd_pow 256 hi
    rw [← Nat.mod_mul_right_div_self, ← Nat.mod_mul_right_div_self, ← Nat.mod_mod_of_dvd m hdvd,
      ← Nat.mod_mod_of_dvd n hdvd, h]

/-- The length field tells numbers apart by their lowest 64 bits. -/
theorem lengthField_inj {m : Nat} : lengthField m = lengthField n ↔ m % 2 ^ 64 = n % 2 ^ 64 := by
  have hbytes : lengthField m = lengthField n ↔ ∀ i < 8, m / 256 ^ i % 256 = n / 256 ^ i % 256 := by
    rw [lengthField, lengthField, List.map_inj_left]
    refine forall_congr' fun i => imp_congr List.mem_range ?_
    rw [← UInt8.toNat_inj, UInt8.toNat_ofNat', UInt8.toNat_ofNat']
  have hpow : 256 ^ 8 = 2 ^ 64 := rfl
  rw [hbytes, bytes_congr, hpow]

theorem bits_eq (h : Taken c message k) : c.bits = lengthField (8 * message.length + 2 ^ 32 * k) := by
  have hcount := h.count
  have hlow := c.count0.toNat_lt
  have hhigh := c.count1.toNat_lt
  exact lengthField_eq (by omega) (by omega)

/-- What `MD5Final` puts behind the message is within its block. -/
theorem finalBlock_take {n : Nat} (hn : n < 64) :
    finalBlock.take ((if n < 56 then 56 else 120) - n) = 0x80 :: List.replicate ((119 - n) % 64) 0 := by
  have hlength : (if n < 56 then 56 else 120) - n = (119 - n) % 64 + 1 := by
    split_ifs <;> omega
  rw [hlength, finalBlock, List.take_succ_cons, List.take_replicate, Nat.min_eq_left (by omega)]

theorem md5Final_eq (h : Taken c message k) :
    md5Final c = digestOf (padded message (8 * message.length + 2 ^ 32 * k)) := by
  have hindex := byteIndex_eq h.low
  have hmod := Nat.mod_lt message.length (show 0 < 64 by decide)
  have hblock := finalBlock_take hmod
  rw [← hindex] at hblock
  have hzeros : (119 - c.byteIndex) % 64 = zeros message.length := by rw [hindex, zeros]
  have hpadding : (finalBlock.take ((if c.byteIndex < 56 then 56 else 120) - c.byteIndex)).length <
    2 ^ 29 := by
    rw [hblock, List.length_cons, List.length_replicate]
    omega
  have hbits : c.bits.length < 2 ^ 29 := by
    rw [bits_eq h, lengthField, List.length_map, List.length_range]
    decide
  have hstate :=
    ((h.update (Nat.lt_trans hpadding (by decide))).update (Nat.lt_trans hbits (by decide))).blocks.state
  rw [hblock, hzeros, bits_eq h, transformBlock_eq] at hstate
  rw [md5Final, digestOf, padded, hblock, hzeros, bits_eq h, hstate]

end Length

section Results

/-- The digest of every string of fewer than 2 ^ 29 bytes and of every file, however it is read, is that
of the algorithm, with the message padded in one piece. -/
theorem lmd5_digest (memory : CtxMemory) (input : Input)
    (h : ∀ text, input = .message text → text.length < 2 ^ 29) :
    lmd5 memory input = digest input.pieces.flatten := by
  have hpieces : ∀ piece ∈ input.pieces, piece.length < 2 ^ 29 := by
    intro piece hpiece
    cases input with
    | message text =>
      rw [List.mem_singleton.mp hpiece]
      exact h text rfl
    | file pieces =>
      obtain ⟨part, -, rfl⟩ := List.mem_map.mp hpiece
      exact Nat.lt_of_le_of_lt part.property.2 (by decide)
  have htaken := taken_hashed memory fun piece hpiece => Nat.lt_trans (hpieces piece hpiece) (by decide)
  rw [slips_small hpieces] at htaken
  rw [lmd5, md5Final_eq htaken, digest, Nat.mul_zero, Nat.add_zero]

/-- The memory of a context. -/
def sampleMemory : CtxMemory := ⟨List.replicate 64 0, rfl⟩

theorem lmd5_digest_abc : lmd5 sampleMemory (.message [97, 98, 99]) = digest [97, 98, 99] :=
  lmd5_digest sampleMemory (.message [97, 98, 99]) fun text h => by
    rw [← Input.message.inj h]
    decide

example : (digest [97, 98, 99]).flatMap hex = "900150983cd24fb0d6963f7d28e17f72".toList := by decide +kernel

/-- The context counts the bits of what it has taken, modulo 2 ^ 64, if and only if the carries that are
too many add up to nothing. -/
theorem bits_iff (memory : CtxMemory) (pieces : List (List UInt8))
    (h : ∀ piece ∈ pieces, piece.length < 2 ^ 31) :
    (hashed memory pieces).bits = lengthField (8 * pieces.flatten.length) ↔ 2 ^ 32 ∣ slips 0 pieces := by
  rw [bits_eq (taken_hashed memory h), lengthField_inj]
  omega

theorem bits_iff_two : (hashed sampleMemory [[1, 2, 3], [4]]).bits = lengthField 32 ↔
    2 ^ 32 ∣ slips 0 [[1, 2, 3], [4]] :=
  bits_iff sampleMemory [[1, 2, 3], [4]] (by decide)

end Results

end T2SDE.MD5
