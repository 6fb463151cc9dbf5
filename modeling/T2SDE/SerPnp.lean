import Mathlib.Data.UInt
import Mathlib.Logic.Function.Basic

namespace T2SDE.SerPnp

/-- The memory from the start of `buf` on. -/
abbrev Buf := Nat → UInt8

section Functions

def backslash : UInt8 := 0x5c

def semicolon : UInt8 := 0x3b

def asterisk : UInt8 := 0x2a

def paren : UInt8 := 0x29

/-- The bytes up to the begin byte are skipped. -/
def readBegin : List UInt8 → Option (UInt8 × List UInt8)
  | [] => none
  | c :: input => if c = 0x08 ∨ c = 0x28 then some (c, input) else readBegin input

/-- The loop that reads the rest, with whether it has come to the end byte. -/
def readEnd (c : UInt8) (buf : Buf) (i : Nat) : List UInt8 → Option (Buf × Nat × Bool)
  | [] => some (buf, i, false)
  | x :: input =>
    if x = c then some (Function.update buf i x, i + 1, true)
    else if 256 ≤ i + 1 then none
    else readEnd c (Function.update buf i x) (i + 1) input

/-- What `main` reads into `buf`. -/
def readFrame (buf : Buf) (input : List UInt8) : Option (Buf × Nat × Bool) :=
  (readBegin input).bind fun (c, rest) => readEnd (c + 1) (Function.update buf 0 c) 1 rest

def offset (buf : Buf) : UInt8 := 0x28 - buf 0

/-- The frame after the two loops of the checksum, and with the revision as it was. -/
def decoded (buf : Buf) (len : Nat) : Buf := fun k =>
  (if k < len then buf k + offset buf else buf k) - if k = 1 ∨ k = 2 then offset buf else 0

/-- The byte of `sum` that is compared. -/
def sum (buf : Buf) (len : Nat) : UInt8 := ((List.range (len - 3)).map buf).sum + buf (len - 1)

def hexDigit (n : UInt8) : UInt8 := if n < 10 then 0x30 + n else 0x37 + n

/-- The loop behind a separator; it looks at `n` bytes at most. -/
def scanFrom (buf : Buf) (sep : UInt8) : Nat → Nat → Nat
  | 0, i => i
  | n + 1, i => if buf i = sep then i else scanFrom buf sep n (i + 1)

def scan (buf : Buf) (sep : UInt8) (len i : Nat) : Nat := scanFrom buf sep (len - i) i

structure Slice where
  start : Nat
  count : Nat

/-- What is found of an optional field, the position behind it, and the bytes that were read. -/
structure Field where
  slice : Slice
  next : Nat
  reads : List Nat

/-- An optional field up to the separator `sep`, of which a first `*` may be ignored. -/
def optional (sep : UInt8) (star : Bool) (keep : Nat → Nat → Bool) (buf : Buf) (len i : Nat) : Field :=
  if buf i = backslash then
    let stop := scan buf sep len (i + 1)
    let j := if star && buf (i + 1) == asterisk then i + 2 else i + 1
    let next := if len ≤ stop then stop - 3 else stop
    ⟨if keep j next then ⟨j, next - j⟩ else ⟨0, 0⟩, next,
      i :: (if star then [i + 1] else []) ++ List.range' (i + 1) (min (stop + 1) len - (i + 1))⟩
  else ⟨⟨0, 0⟩, i, [i]⟩

/-- Device serial number: eight characters. -/
def serial : Buf → Nat → Nat → Field := optional backslash false fun j i => i == j + 8

def devclass : Buf → Nat → Nat → Field := optional backslash false fun j i => j + 1 < i

def compat : Buf → Nat → Nat → Field := optional backslash true fun j i => j + 1 < i

def description : Buf → Nat → Nat → Field := optional semicolon false fun j i => j + 1 < i

structure PnpId where
  revision : Nat
  eisaid : Slice
  serial : Slice
  devclass : Slice
  compat : Slice
  description : Slice

def PnpId.optionals (id : PnpId) : List Slice := [id.serial, id.devclass, id.compat, id.description]

/-- There is a checksum if there is an optional field. -/
def PnpId.checked (id : PnpId) : Bool := id.optionals.any fun s => 0 < s.count

/-- What is returned, the bytes that were read, and whether the checksum is wrong. -/
structure Parse where
  id : PnpId
  reads : List Nat
  mismatch : Bool

def pnpparse (buf : Buf) (len : Nat) : Parse :=
  let d := decoded buf len
  let a := serial d len 10
  let b := devclass d len a.next
  let c := compat d len b.next
  let e := description d len c.next
  let id : PnpId := {
    revision := ((d 1 &&& 0x3f).toNat <<< 6) ||| (d 2 &&& 0x3f).toNat
    eisaid := ⟨3, if d 9 = paren then 6 else 7⟩
    serial := a.slice
    devclass := b.slice
    compat := c.slice
    description := e.slice }
  { id
    reads := List.range len ++ [len - 1, 1, 2, 9] ++ a.reads ++ b.reads ++ c.reads ++ e.reads ++
      if id.checked then [len - 3, len - 2] else []
    mismatch := id.checked && (d (len - 3) != hexDigit (sum buf len / 16) || d (len - 2) != hexDigit
      (sum buf len % 16)) }

end Functions

section Statement

def PnpId.slices (id : PnpId) : List Slice := id.eisaid :: id.optionals

/-- Only bytes of the frame are read, and the slices lie in it, in front of the checksum, and apart. -/
structure Inside (buf : Buf) (len : Nat) : Prop where
  reads : ∀ r ∈ (pnpparse buf len).reads, r < len
  slices : ∀ s ∈ (pnpparse buf len).id.slices, 0 < s.count →
    s.start + s.count ≤ if (pnpparse buf len).id.checked then len - 3 else len
  apart : (pnpparse buf len).id.slices.Pairwise fun s t =>
    0 < s.count → 0 < t.count → s.start + s.count ≤ t.start ∨ t.start + t.count ≤ s.start

def separator (k : Nat) : UInt8 := if k = 3 then semicolon else backslash

/-- Whether the field is returned if it stands from `j` to `i`. -/
def kept (k j i : Nat) : Bool := if k = 0 then i == j + 8 else j + 1 < i

/-- Where the optional fields begin, behind the backslashes of the frame. -/
inductive Begins (d : Buf) (len : Nat) : Nat → Nat → Prop
  | first (h : d 10 = backslash) : Begins d len 0 11
  | next {k s p : Nat} (begins : Begins d len k s) (hk : k < 3) (hs : s ≤ p) (hp : p < len)
      (free : ∀ x, s ≤ x → x < p → d x ≠ backslash) (sep : d p = backslash) : Begins d len (k + 1) (p + 1)

/-- A field that is returned, and that the byte in place of the second checksum character ends. -/
structure Overlong (d : Buf) (len k s : Nat) : Prop where
  begins : Begins d len k s
  sep : d (len - 2) = separator k
  free : ∀ x, s ≤ x → x < len - 2 → d x ≠ separator k
  long : kept k (if k = 2 ∧ d s = asterisk then s + 1 else s) (len - 2) = true

end Statement

section Scan

variable {d : Buf} {sep : UInt8} {star : Bool} {keep : Nat → Nat → Bool} {len i k s n : Nat}

theorem scanFrom_spec (d : Buf) (sep : UInt8) (n i : Nat) :
    i ≤ scanFrom d sep n i ∧ scanFrom d sep n i ≤ i + n ∧
    (∀ x, i ≤ x → x < scanFrom d sep n i → d x ≠ sep) ∧
    (scanFrom d sep n i < i + n → d (scanFrom d sep n i) = sep) := by
  induction n generalizing i with
  | zero => exact ⟨Nat.le_refl i, Nat.le_refl i, fun x hx hlt => by rw [scanFrom] at hlt; omega, fun h => by
      rw [scanFrom] at h; omega⟩
  | succ n ih =>
    rw [scanFrom]
    split
    next h => exact ⟨Nat.le_refl i, by omega, fun x hx hlt => by omega, fun _ => h⟩
    next h =>
      obtain ⟨hge, hle, hfree, hstop⟩ := ih (i + 1)
      refine ⟨by omega, by omega, fun x hx hlt => ?_, fun hlt => hstop (by omega)⟩
      rcases Nat.eq_or_lt_of_le hx with rfl | hx
      · exact h
      · exact hfree x hx hlt

theorem scan_spec (d : Buf) (sep : UInt8) (h : i ≤ len) : i ≤ scan d sep len i ∧ scan d sep len i ≤ len ∧
    (∀ x, i ≤ x → x < scan d sep len i → d x ≠ sep) ∧
    (scan d sep len i < len → d (scan d sep len i) = sep) := by
  obtain ⟨hge, hle, hfree, hstop⟩ := scanFrom_spec d sep (len - i) i
  exact ⟨hge, by rw [scan]; omega, hfree, fun hlt => hstop (by rw [scan] at hlt; omega)⟩

/-- The loop stops at the first separator. -/
theorem scan_eq (his : i ≤ s) (hs : s < len) (hfree : ∀ x, i ≤ x → x < s → d x ≠ sep) (hsep : d s = sep) :
    scan d sep len i = s := by
  obtain ⟨hge, hle, hnone, hstop⟩ := scan_spec d sep (show i ≤ len by omega)
  rcases Nat.lt_trichotomy (scan d sep len i) s with hlt | heq | hgt
  · exact absurd (hstop (by omega)) (hfree _ hge hlt)
  · exact heq
  · exact absurd hsep (hnone s his hgt)

end Scan

section Fields

variable {d : Buf} {len i k s : Nat}

/-- The optional fields, one after the other. -/
def fieldOf (k : Nat) : Buf → Nat → Nat → Field := optional (separator k) (k == 2) (kept k)

def startOf (d : Buf) (k s : Nat) : Nat := if k = 2 ∧ d s = asterisk then s + 1 else s

theorem fieldOf_none (h : d i ≠ backslash) : fieldOf k d len i = ⟨⟨0, 0⟩, i, [i]⟩ := if_neg h

theorem startOf_ge (d : Buf) (k s : Nat) : s ≤ startOf d k s := by
  rw [startOf]
  split
  · omega
  · omega

theorem kept_lt {j : Nat} (h : kept k j i = true) : j + 1 < i := by
  rw [kept] at h
  split at h
  · rw [beq_iff_eq] at h
    omega
  · exact of_decide_eq_true h

theorem fieldOf_some (k len : Nat) (h : d i = backslash) :
    (fieldOf k d len i).next =
    (if len ≤ scan d (separator k) len (i + 1) then scan d (separator k) len (i + 1) - 3
      else scan d (separator k) len (i + 1)) ∧
    (fieldOf k d len i).slice = (if kept k (startOf d k (i + 1)) (fieldOf k d len i).next then
      ⟨startOf d k (i + 1), (fieldOf k d len i).next - startOf d k (i + 1)⟩ else ⟨0, 0⟩) ∧
    ∀ r ∈ (fieldOf k d len i).reads, r = i ∨ r = i + 1 ∨ i + 1 ≤ r ∧ r < len := by
  have hstart : (if (k == 2) && d (i + 1) == asterisk then i + 2 else i + 1) = startOf d k (i + 1) := by
    rw [startOf]
    simp only [Bool.and_eq_true, beq_iff_eq]
  refine ⟨?_, ?_, fun r hr => ?_⟩
  · rw [fieldOf, optional, if_pos h]
  · rw [fieldOf, optional, if_pos h, ← hstart]
  · rw [fieldOf, optional, if_pos h] at hr
    rcases List.mem_append.mp hr with hr | hr
    · rcases List.mem_cons.mp hr with rfl | hr
      · exact .inl rfl
      · split at hr
        · exact .inr (.inl (List.mem_singleton.mp hr))
        · cases hr
    · rw [List.mem_range'_1] at hr
      exact .inr (.inr ⟨hr.1, by omega⟩)

/-- What holds of a field that is looked for at `i`. -/
structure Step (len i : Nat) (f : Field) : Prop where
  reads : ∀ r ∈ f.reads, r < len
  next : f.next < len
  forward : i ≤ f.next ∨ len - 3 ≤ f.next
  tail : len - 3 ≤ i → len - 3 ≤ f.next ∧ f.slice.count = 0
  slice : 0 < f.slice.count → i < f.slice.start ∧ f.slice.start + f.slice.count = f.next ∧ f.next ≤ len - 2 ∧
    2 ≤ f.slice.count

theorem field_step (hlen : 11 ≤ len) (hlast : d (len - 1) ≠ backslash ∧ d (len - 1) ≠ separator k)
    (hi : i < len) :
    Step len i (fieldOf k d len i) := by
  by_cases h : d i = backslash
  · have hne : i ≠ len - 1 := by
      rintro rfl
      exact hlast.1 h
    obtain ⟨hnext, hslice, hreads⟩ := fieldOf_some k len h
    obtain ⟨hge, hle, -, hstop⟩ := scan_spec d (separator k) (show i + 1 ≤ len by omega)
    have hstopped : scan d (separator k) len (i + 1) ≠ len - 1 := by
      intro heq
      rw [heq] at hstop
      exact hlast.2 (hstop (by omega))
    have hcases : (fieldOf k d len i).next = len - 3 ∨ i < (fieldOf k d len i).next ∧
      (fieldOf k d len i).next ≤ len - 2 := by
      rw [hnext]
      split
      · omega
      · omega
    have hcount : 0 < (fieldOf k d len i).slice.count → startOf d k (i + 1) + 1 < (fieldOf k d len i).next ∧
        (fieldOf k d len i).slice = ⟨startOf d k (i + 1),
          (fieldOf k d len i).next - startOf d k (i + 1)⟩ := by
      intro hpos
      by_cases hkept : kept k (startOf d k (i + 1)) (fieldOf k d len i).next = true
      · rw [if_pos hkept] at hslice
        exact ⟨kept_lt hkept, hslice⟩
      · rw [if_neg hkept] at hslice
        rw [hslice] at hpos
        cases hpos
    have hstart := startOf_ge d k (i + 1)
    refine ⟨fun r hr => ?_, by omega, by omega, fun htail => ⟨by omega, ?_⟩, fun hpos => ?_⟩
    · rcases hreads r hr with rfl | rfl | hr
      · exact hi
      · omega
      · exact hr.2
    · by_contra hpos
      obtain ⟨hlt, -⟩ := hcount (Nat.pos_of_ne_zero hpos)
      omega
    · obtain ⟨hlt, heq⟩ := hcount hpos
      rw [heq]
      dsimp only
      omega
  · rw [fieldOf_none h]
    refine ⟨fun r hr => ?_, hi, .inl (Nat.le_refl i), fun htail => ⟨htail, rfl⟩, fun hpos => by cases hpos⟩
    rw [List.mem_singleton.mp hr]
    exact hi

/-- The positions at which the fields are looked for. -/
def position (d : Buf) (len : Nat) : Nat → Nat
  | 0 => 10
  | k + 1 => (fieldOf k d len (position d len k)).next

theorem position_succ (d : Buf) (len k : Nat) :
    position d len (k + 1) = (fieldOf k d len (position d len k)).next := rfl

structure Closed (d : Buf) (len : Nat) : Prop where
  long : 11 ≤ len
  last : d (len - 1) = paren

theorem Closed.last_ne (h : Closed d len) (k : Nat) :
    d (len - 1) ≠ backslash ∧ d (len - 1) ≠ separator k := by
  rw [h.last, separator]
  split
  · decide
  · decide

theorem Closed.step (h : Closed d len) (k : Nat) :
    Step len (position d len k) (fieldOf k d len (position d len k)) := by
  have hlong := h.long
  induction k with
  | zero => exact field_step hlong (h.last_ne 0) (by rw [position]; omega)
  | succ k ih => exact field_step hlong (h.last_ne _) ih.next

/-- Where a field is looked for in front of the end, a field of the frame begins behind it. -/
theorem Closed.begins (h : Closed d len) (hk : k ≤ 3) (hpos : position d len k < len - 3)
    (hsep : d (position d len k) = backslash) : Begins d len k (position d len k + 1) := by
  induction k with
  | zero => exact .first hsep
  | succ k ih =>
    have hback : d (position d len k) = backslash := by
      by_contra hne
      rw [position, fieldOf_none hne] at hsep
      exact hne hsep
    have hlt : position d len k < len - 3 := by
      by_contra hge
      have htail := ((h.step k).tail (by omega)).1
      rw [← position_succ] at htail
      omega
    have hnext := (fieldOf_some k len hback).1
    rw [← position_succ] at hnext
    obtain ⟨hge, -, hfree, hstop⟩ := scan_spec d (separator k) (show position d len k + 1 ≤ len by omega)
    by_cases hend : len ≤ scan d (separator k) len (position d len k + 1)
    · rw [if_pos hend] at hnext
      omega
    · rw [if_neg hend] at hnext
      have hseparator : separator k = backslash := if_neg (by omega)
      rw [hseparator] at hnext hfree hge hend
      rw [hnext] at hsep ⊢
      exact .next (ih (by omega) hlt hback) (by omega) hge (by omega) hfree hsep

/-- The fields of the frame that begin in front of the end are looked for. -/
theorem position_eq (hbegins : Begins d len k s) (hs : s ≤ len - 3) :
    s = position d len k + 1 ∧ d (position d len k) = backslash := by
  induction hbegins with
  | first hsep => exact ⟨rfl, hsep⟩
  | @next k s p _ hk hsp hp hfree hsep ih =>
    obtain ⟨hstart, hback⟩ := ih (by omega)
    have hseparator : separator k = backslash := if_neg (by omega)
    have hnext := (fieldOf_some k len hback).1
    rw [← position_succ, hseparator, ← hstart, scan_eq hsp hp hfree hsep, if_neg (by omega)] at hnext
    rw [hnext]
    exact ⟨rfl, hsep⟩

/-- A field reaches into the checksum exactly if it is ended there in the frame. -/
theorem Closed.overlong_iff (h : Closed d len) (hk : k ≤ 3) :
    (0 < (fieldOf k d len (position d len k)).slice.count ∧ position d len (k + 1) = len - 2) ↔
      ∃ s, Overlong d len k s := by
  have hlong := h.long
  constructor
  · rintro ⟨hcount, hnext⟩
    have hback : d (position d len k) = backslash := by
      by_contra hne
      rw [fieldOf_none hne] at hcount
      cases hcount
    have hlt : position d len k < len - 3 := by
      by_contra hge
      have hnone := ((h.step k).tail (by omega)).2
      omega
    obtain ⟨hfield, hslice, -⟩ := fieldOf_some k len hback
    rw [← position_succ] at hfield hslice
    obtain ⟨-, hle, hfree, hstop⟩ := scan_spec d (separator k) (show position d len k + 1 ≤ len by omega)
    have hscan : scan d (separator k) len (position d len k + 1) = len - 2 := by
      rw [hnext] at hfield
      split at hfield
      · omega
      · exact hfield.symm
    rw [hscan] at hfree hstop
    refine ⟨position d len k + 1, h.begins hk hlt hback, hstop (by omega), hfree, ?_⟩
    by_contra hkept
    rw [hnext, startOf, if_neg hkept] at hslice
    rw [hslice] at hcount
    cases hcount
  · rintro ⟨s, hbegins, hsep, hfree, hkept⟩
    have hs := kept_lt hkept
    have hge := startOf_ge d k s
    rw [startOf] at hge
    obtain ⟨hstart, hback⟩ := position_eq hbegins (by omega)
    obtain ⟨hfield, hslice, -⟩ := fieldOf_some k len hback
    rw [← position_succ, ← hstart] at hfield hslice
    rw [scan_eq (by omega) (by omega) hfree hsep, if_neg (by omega)] at hfield
    rw [hfield, startOf, if_pos hkept] at hslice
    rw [hslice]
    dsimp only
    omega

end Fields

section Parsing

variable {buf : Buf} {len k : Nat}

theorem pnpparse_fields (buf : Buf) (len : Nat) : (pnpparse buf len).id.optionals =
    (List.range 4).map fun k =>
    (fieldOf k (decoded buf len) len (position (decoded buf len) len k)).slice := rfl

theorem pnpparse_reads (buf : Buf) (len : Nat) : (pnpparse buf len).reads =
    List.range len ++ [len - 1, 1, 2, 9] ++
    (fieldOf 0 (decoded buf len) len (position (decoded buf len) len 0)).reads ++
      (fieldOf 1 (decoded buf len) len (position (decoded buf len) len 1)).reads ++
      (fieldOf 2 (decoded buf len) len (position (decoded buf len) len 2)).reads ++
      (fieldOf 3 (decoded buf len) len (position (decoded buf len) len 3)).reads ++
      if (pnpparse buf len).id.checked then [len - 3, len - 2] else [] := rfl

theorem read_ten (buf : Buf) (len : Nat) : 10 ∈ (pnpparse buf len).reads := by
  have hten : 10 ∈ (fieldOf 0 (decoded buf len) len 10).reads := by
    rw [fieldOf, optional]
    split
    · exact List.mem_append_left _ List.mem_cons_self
    · exact List.mem_cons_self
  rw [pnpparse_reads]
  simp only [List.mem_append]
  exact .inl (.inl (.inl (.inl (.inr hten))))

theorem eisaid_spec (buf : Buf) (len : Nat) : (pnpparse buf len).id.eisaid.start = 3 ∧
    0 < (pnpparse buf len).id.eisaid.count ∧ (pnpparse buf len).id.eisaid.count ≤ 7 := by
  rw [pnpparse]
  dsimp only
  split
  · decide
  · decide

theorem reads_inside (h : Closed (decoded buf len) len) : ∀ r ∈ (pnpparse buf len).reads, r < len := by
  have hlong := h.long
  intro r hr
  rw [pnpparse_reads] at hr
  simp only [List.mem_append, List.mem_range, List.mem_cons, List.not_mem_nil, or_false] at hr
  rcases hr with ((((((hr | hr) | hr) | hr) | hr) | hr) | hr)
  · exact hr
  · omega
  · exact (h.step 0).reads r hr
  · exact (h.step 1).reads r hr
  · exact (h.step 2).reads r hr
  · exact (h.step 3).reads r hr
  · split at hr
    · simp only [List.mem_cons, List.not_mem_nil, or_false] at hr
      omega
    · cases hr

theorem checked_iff (buf : Buf) (len : Nat) : (pnpparse buf len).id.checked = true ↔
    ∃ k ≤ 3, 0 < (fieldOf k (decoded buf len) len (position (decoded buf len) len k)).slice.count := by
  rw [PnpId.checked, pnpparse_fields, List.any_map, List.any_eq_true]
  constructor
  · rintro ⟨k, hk, h⟩
    rw [List.mem_range] at hk
    exact ⟨k, by omega, of_decide_eq_true h⟩
  · rintro ⟨k, hk, h⟩
    exact ⟨k, List.mem_range.mpr (by omega), decide_eq_true h⟩

theorem Closed.order {d : Buf} (h : Closed d len) {m : Nat} (hkm : k ≤ m) (hm : position d len m < len - 3) :
    position d len k ≤ position d len m := by
  induction m with
  | zero =>
    exact Nat.le_of_eq (by rw [Nat.le_zero.mp hkm])
  | succ m ih =>
    rcases Nat.lt_or_ge m k with hlt | hge
    · have heq : k = m + 1 := by omega
      exact Nat.le_of_eq (by rw [heq])
    · have hstep := h.step m
      have hbefore : position d len m < len - 3 := by
        by_contra hnot
        have htail := (hstep.tail (by omega)).1
        rw [← position_succ] at htail
        omega
      have hforward := hstep.forward
      rw [← position_succ] at hforward
      have hle := ih hge hbefore
      omega

/-- Where a field that is returned lies. -/
theorem Closed.slice {d : Buf} (h : Closed d len)
    (hcount : 0 < (fieldOf k d len (position d len k)).slice.count) :
    10 ≤ position d len k ∧ position d len k < len - 3 ∧
      position d len k < (fieldOf k d len (position d len k)).slice.start ∧
      (fieldOf k d len (position d len k)).slice.start + (fieldOf k d len (position d len k)).slice.count =
        position d len (k + 1) ∧
      position d len (k + 1) ≤ len - 2 ∧ 12 < position d len (k + 1) := by
  have hstep := h.step k
  have hlt : position d len k < len - 3 := by
    by_contra hge
    have hnone := (hstep.tail (by omega)).2
    omega
  have hten : 10 ≤ position d len k := h.order (Nat.zero_le k) hlt
  obtain ⟨hstart, hend, hle, htwo⟩ := hstep.slice hcount
  rw [position_succ]
  exact ⟨hten, hlt, hstart, hend, hle, by omega⟩

theorem Closed.apart {d : Buf} (h : Closed d len) {m : Nat} (hkm : k < m)
    (hk : 0 < (fieldOf k d len (position d len k)).slice.count)
    (hm : 0 < (fieldOf m d len (position d len m)).slice.count) :
    (fieldOf k d len (position d len k)).slice.start + (fieldOf k d len (position d len k)).slice.count ≤
      (fieldOf m d len (position d len m)).slice.start := by
  obtain ⟨-, -, -, hend, -, -⟩ := h.slice hk
  obtain ⟨-, hlt, hstart, -, -, -⟩ := h.slice hm
  have hle := h.order (show k + 1 ≤ m by omega) hlt
  omega

theorem Begins.le {d : Buf} {s : Nat} (h : Begins d len k s) : k ≤ 3 := by
  cases h with
  | first _ => exact Nat.zero_le 3
  | next _ hk _ _ _ _ => omega

theorem mem_optionals {slice : Slice} (h : slice ∈ (pnpparse buf len).id.optionals) :
    ∃ k ≤ 3, slice = (fieldOf k (decoded buf len) len (position (decoded buf len) len k)).slice := by
  rw [pnpparse_fields] at h
  obtain ⟨k, hk, rfl⟩ := List.mem_map.mp h
  rw [List.mem_range] at hk
  exact ⟨k, by omega, rfl⟩

theorem Inside.long (h : Inside buf len) : 11 ≤ len := h.reads 10 (read_ten buf len)

theorem Inside.not_overlong (h : Inside buf len) (hclosed : Closed (decoded buf len) len) (s : Nat) :
    ¬Overlong (decoded buf len) len k s := by
  intro hover
  have hk := hover.begins.le
  obtain ⟨hcount, hnext⟩ := (hclosed.overlong_iff hk).mpr ⟨s, hover⟩
  have hchecked := (checked_iff buf len).mpr ⟨k, hk, hcount⟩
  obtain ⟨-, -, -, hend, -, -⟩ := hclosed.slice hcount
  have hmem : (fieldOf k (decoded buf len) len (position (decoded buf len) len k)).slice ∈
    (pnpparse buf len).id.slices := by
    refine List.mem_cons_of_mem _ ?_
    rw [pnpparse_fields]
    exact List.mem_map_of_mem (List.mem_range.mpr (by omega))
  have hin := h.slices _ hmem hcount
  have hlong := hclosed.long
  rw [if_pos hchecked] at hin
  omega

theorem Closed.inside (h : Closed (decoded buf len) len)
    (hover : ∀ k s, ¬Overlong (decoded buf len) len k s) :
    Inside buf len := by
  obtain ⟨hstart, -, hseven⟩ := eisaid_spec buf len
  have hlong := h.long
  have hfields : ∀ slice ∈ (pnpparse buf len).id.optionals, 0 < slice.count →
      10 < slice.start ∧ slice.start + slice.count ≤ len - 3 ∧ 12 < slice.start + slice.count := by
    intro slice hslice hcount
    obtain ⟨k, hk, rfl⟩ := mem_optionals hslice
    obtain ⟨hten, -, hin, hend, hle, htwelve⟩ := h.slice hcount
    have hne : position (decoded buf len) len (k + 1) ≠ len - 2 := by
      intro heq
      obtain ⟨s, hs⟩ := (h.overlong_iff hk).mp ⟨hcount, heq⟩
      exact hover k s hs
    omega
  refine ⟨reads_inside h, fun slice hslice hcount => ?_,
    List.pairwise_cons.mpr ⟨fun slice hslice _ hcount => ?_, ?_⟩⟩
  · rcases List.mem_cons.mp hslice with rfl | hslice
    · split
      next hchecked =>
        obtain ⟨k, hk, hcount⟩ := (checked_iff buf len).mp hchecked
        obtain ⟨-, -, -, -, hle, htwelve⟩ := h.slice hcount
        omega
      next => omega
    · obtain ⟨-, hle, -⟩ := hfields slice hslice hcount
      split
      · exact hle
      · omega
  · obtain ⟨hin, -, -⟩ := hfields slice hslice hcount
    omega
  · rw [pnpparse_fields]
    exact List.pairwise_map.mpr (List.pairwise_lt_range.imp fun hkm hk hm => .inl (h.apart hkm hk hm))

end Parsing

section Reading

variable {buf : Buf} {c : UInt8} {i len : Nat} {input : List UInt8}

theorem readEnd_spec {buf' : Buf} (hi : 0 < i) (h : readEnd c buf i input = some (buf', len, true)) :
    buf' 0 = buf 0 ∧ buf' (len - 1) = c := by
  induction input generalizing buf i with
  | nil => cases h
  | cons x input ih =>
    rw [readEnd] at h
    split at h
    next hx =>
      cases h
      exact ⟨Function.update_of_ne (by omega) _ _, by rw [Nat.add_sub_cancel, Function.update_self, hx]⟩
    next =>
      split at h
      · cases h
      · obtain ⟨hfirst, hlast⟩ := ih (by omega) h
        rw [Function.update_of_ne (by omega)] at hfirst
        exact ⟨hfirst, hlast⟩

theorem readBegin_spec {rest : List UInt8} (h : readBegin input = some (c, rest)) : c = 0x08 ∨ c = 0x28 := by
  induction input with
  | nil => cases h
  | cons x input ih =>
    rw [readBegin] at h
    split at h
    next hx =>
      cases h
      exact hx
    next => exact ih h

/-- A frame of the reader ends in `)` when it is decoded. -/
theorem readFrame_closed {junk : Buf} (h : readFrame junk input = some (buf, len, true)) (hlen : 11 ≤ len) :
    Closed (decoded buf len) len := by
  obtain ⟨⟨c, rest⟩, hbegin, hend⟩ := Option.bind_eq_some_iff.mp h
  obtain ⟨hfirst, hlast⟩ := readEnd_spec (Nat.zero_lt_one) hend
  rw [Function.update_self] at hfirst
  refine ⟨hlen, ?_⟩
  have hout : ¬(len - 1 = 1 ∨ len - 1 = 2) := by omega
  rw [decoded, if_pos (by omega), if_neg hout, hlast, offset, hfirst]
  rcases readBegin_spec hbegin with rfl | rfl
  · rfl
  · rfl

/-- Of a frame that the reader accepts, exactly these are parsed inside of it. -/
theorem pnpparse_inside_iff (junk : Buf) (input : List UInt8) :
    (∀ buf len, readFrame junk input = some (buf, len, true) → Inside buf len) ↔
      ∀ buf len, readFrame junk input = some (buf, len, true) →
        11 ≤ len ∧ ∀ k s, ¬Overlong (decoded buf len) len k s := by
  refine forall_congr' fun buf => forall_congr' fun len => forall_congr' fun h => ?_
  constructor
  · exact fun hinside => ⟨hinside.long, fun k s => hinside.not_overlong (readFrame_closed h hinside.long) s⟩
  · exact fun ⟨hlen, hover⟩ => (readFrame_closed h hlen).inside hover

/-- A frame with nothing between its ends. -/
theorem short_frame : ¬∀ (junk : Buf) (input : List UInt8) (buf : Buf) (len : Nat),
    readFrame junk input = some (buf, len, true) → Inside buf len := by
  intro h
  have hlong := (h (fun _ => 0) [0x28, 0x29] _ _ rfl).long
  omega

end Reading

end T2SDE.SerPnp
