import Mathlib.Data.String.Basic
import Mathlib.Algebra.Ring.Int.Defs
import T2SDE.Lib.CString
import T2SDE.Lib.ThreeWay

namespace T2SDE.Version

open Text CString ThreeWay

/-- The first character of a part, as `val[0]` reads it. -/
def first (val : Str) : Char := val.headD nul

def skipSeparator : Str → Str
  | c :: s => if c.isAlphanum then c :: s else s
  | [] => []

/-- `next_part` from a position: the part, and what is left behind the separator. -/
def nextPart (s : Str) : Str × Str :=
  let typeMask : Char → Bool := if (first s).isDigit then Char.isDigit else Char.isAlpha
  (s.takeWhile typeMask, skipSeparator (s.dropWhile typeMask))

def sameCclass (a b : Char) : Bool := (a.isAlpha && b.isAlpha) || (a.isDigit && b.isDigit)

/-- `atoi`, with the value clamped to a `long` and cut to an `int`. -/
def intVal (val : Str) : Int := (min (atoi val) (2 ^ 63 - 1)).bmod (2 ^ 32)

/-- `std::abs(int_val - other_int_val) > 100`, in `int` arithmetic. -/
def tooFar (m n : Int) : Bool :=
  let d := (m - n).bmod (2 ^ 32)
  d != -2 ^ 31 && 100 < d.natAbs

/-- `subversion::operator<` -/
def subLess (val other : Str) : Bool :=
  if !sameCclass (first val) (first other) then (first val).isAlpha
  else if (first val).isDigit && (first other).isDigit then
    if tooFar (intVal val) (intVal other) then true
    else decide (intVal val < intVal other)
  else decide (val < other)

/-- `subversion::operator>` -/
def subGreater (val other : Str) : Bool :=
  if !sameCclass (first val) (first other) then (first other).isAlpha
  else if (first val).isDigit && (first other).isDigit then
    if tooFar (intVal val) (intVal other) then false
    else decide (intVal other < intVal val)
  else decide (other < val)

/-- The step behind the loop of `compare`. -/
def compareFinal (a b : Str) : Int :=
  let subvA := (nextPart a).1
  let subvB := (nextPart b).1
  if subvA ≠ [] then if (first subvA).isDigit then 1 else -1
  -- the source tests the part of `a` here too
  else if subvB ≠ [] then if (first subvA).isDigit then 1 else -1
  else 0

def compareLoop : Nat → Str → Str → Int
  | 0, a, b => compareFinal a b
  | fuel + 1, a, b =>
    if a = [] ∨ b = [] then compareFinal a b
    else if subLess (nextPart a).1 (nextPart b).1 then -1
    else if subGreater (nextPart a).1 (nextPart b).1 then 1
    else compareLoop fuel (nextPart a).2 (nextPart b).2

/-- `Version::compare`; every turn of its loop takes a character off `a`. -/
def compare (a b : Str) : Int := compareLoop a.length a b

/-- `Version::operator<` -/
def Less (a b : Str) : Prop := compare a b = -1

instance (a b : Str) : Decidable (Less a b) := inferInstanceAs (Decidable (_ = _))

/-- A part as the comparison sees it. -/
inductive Part
  | empty
  | number (n : Int)
  | word (w : Str)
  deriving DecidableEq

def Part.ofVal : Str → Part
  | [] => .empty
  | c :: val => if c.isDigit then .number (intVal (c :: val)) else .word (c :: val)

def partsFrom : Nat → Str → List Part
  | 0, _ => []
  | fuel + 1, s => if s = [] then [] else .ofVal (nextPart s).1 :: partsFrom fuel (nextPart s).2

/-- The parts of a version. -/
def parts (s : Str) : List Part := partsFrom s.length s

/-- Parts that the comparison passes over: an empty one matches every number. -/
def Part.Alike : Part → Part → Prop
  | .empty, .empty | .empty, .number _ | .number _, .empty => True
  | .number m, .number n => m = n
  | .word v, .word w => v = w
  | _, _ => False

/-- Numbers that are skipped as too far from each other. -/
def Part.Far : Part → Part → Prop
  | .number m, .number n => tooFar m n = true
  | _, _ => False

/-- Where two versions differ first, there are numbers too far from each other, or one version has
ended and the other goes on with letters. -/
def Clash : List Part → List Part → Prop
  | p :: ps, q :: qs => p.Far q ∨ (p.Alike q ∧ Clash ps qs)
  | [], .word _ :: _ | .word _ :: _, [] => True
  | _, _ => False

/-- Two versions that an empty part matches, but that do not match each other: only one has ended,
or their numbers differ. -/
def Parted : Option Part → Option Part → Prop
  | none, some .empty | none, some (.number _) | some .empty, none | some (.number _), none => True
  | some (.number m), some (.number n) => m ≠ n
  | _, _ => False

/-- One of three versions goes on with an empty part that matches both others, which part. -/
def TornHere (p q r : Option Part) : Prop :=
  (p = some .empty ∧ Parted q r) ∨ (q = some .empty ∧ Parted p r) ∨ (r = some .empty ∧ Parted p q)

/-- Three versions are alike up to a place where an empty part hides that two of them part. -/
def Torn : List Part → List Part → List Part → Prop
  | p :: ps, q :: qs, r :: rs =>
    TornHere p q r ∨ (p.Alike q ∧ q.Alike r ∧ p.Alike r ∧ Torn ps qs rs)
  | ps, qs, rs => TornHere ps.head? qs.head? rs.head?

/-- The verdict on two parts; `0` lets the comparison go on. -/
def Part.compare : Part → Part → Int
  | .number m, .number n => if tooFar m n then -1 else sign m n
  | .word v, .word w => sign v w
  | .word _, _ => -1
  | _, .word _ => 1
  | _, _ => 0

/-- The verdict when one version has ended; the second case is the branch that looks at the wrong
part. -/
def compareEnd : List Part → List Part → Int
  | .number _ :: _, _ => 1
  | .word _ :: _, _ => -1
  | _, .number _ :: _ | _, .word _ :: _ => -1
  | _, _ => 0

def compareParts : List Part → List Part → Int
  | p :: ps, q :: qs => if p.compare q = 0 then compareParts ps qs else p.compare q
  | ps, qs => compareEnd ps qs

section Reading

variable {s a b val other : Str} {p q : Part}

/-- What `next_part` extracts: nothing, digits or letters. -/
inductive Reads : Str → Part → Prop
  | empty : Reads [] .empty
  | number {c : Char} {val : Str} (h : c.isDigit = true) :
      Reads (c :: val) (.number (intVal (c :: val)))
  | word {c : Char} {val : Str} (h : c.isAlpha = true) : Reads (c :: val) (.word (c :: val))

theorem not_alpha_of_digit {c : Char} (h : c.isDigit = true) : c.isAlpha = false := by
  have hdigit : c.val.toNat ≤ 57 := by
    have hle : decide (c.val ≤ '9'.val) = true := (Bool.and_eq_true_iff.mp h).2
    exact UInt32.le_iff_toNat_le.mp (of_decide_eq_true hle)
  -- the letters start behind the digits
  have hlow (l : Char) (hl : 58 ≤ l.val.toNat) : ¬l.val ≤ c.val := by
    rw [UInt32.le_iff_toNat_le]
    omega
  have hupper : c.isUpper = false := decide_eq_false fun hle => hlow 'A' (by decide) hle.1
  have hlower : c.isLower = false :=
    Bool.and_eq_false_iff.mpr (.inl (decide_eq_false (hlow 'a' (by decide))))
  exact Bool.or_eq_false_iff.mpr ⟨hupper, hlower⟩

theorem reads_nextPart (s : Str) : Reads (nextPart s).1 (.ofVal (nextPart s).1) := by
  cases s with
  | nil => exact .empty
  | cons c s =>
    by_cases hdigit : c.isDigit = true
    · simpa [nextPart, first, hdigit, Part.ofVal] using Reads.number hdigit
    by_cases halpha : c.isAlpha = true
    · simpa [nextPart, first, hdigit, halpha, Part.ofVal] using Reads.word halpha
    · simpa [nextPart, first, hdigit, halpha, Part.ofVal] using Reads.empty

theorem Reads.first_isDigit (h : Reads val p) : (first val).isDigit = true ↔ ∃ n, p = .number n := by
  cases h with
  | empty => simp [first, nul]
  | number h => simp [first, h]
  | word h =>
    simp only [first, List.headD_cons, reduceCtorEq, exists_false, iff_false]
    intro hd
    simp [not_alpha_of_digit hd] at h

theorem Reads.first_isAlpha (h : Reads val p) : (first val).isAlpha = true ↔ ∃ w, p = .word w := by
  cases h with
  | empty => simp [first, nul]
  | number h => simp [first, not_alpha_of_digit h]
  | word h => simp [first, h]

theorem Part.compare_cases (p q : Part) : p.compare q = -1 ∨ p.compare q = 0 ∨ p.compare q = 1 := by
  cases p <;> cases q <;> simp only [Part.compare, sign] <;> (try split_ifs) <;> simp

theorem subLess_iff (hval : Reads val p) (hother : Reads other q) :
    subLess val other = true ↔ p.compare q = -1 := by
  have hd := hval.first_isDigit
  have ha := hval.first_isAlpha
  have hd' := hother.first_isDigit
  have ha' := hother.first_isAlpha
  cases hval <;> cases hother <;> simp_all [subLess, sameCclass, Part.compare, sign_eq_neg]
  cases tooFar (intVal _) (intVal _) <;> simp

theorem subGreater_iff (hval : Reads val p) (hother : Reads other q) :
    subGreater val other = true ↔ p.compare q = 1 := by
  have hd := hval.first_isDigit
  have ha := hval.first_isAlpha
  have hd' := hother.first_isDigit
  have ha' := hother.first_isAlpha
  cases hval <;> cases hother <;> simp_all [subGreater, sameCclass, Part.compare, sign_eq_pos]
  split_ifs with hfar <;> simp [hfar, sign_eq_pos]

theorem skipSeparator_length (s : Str) : (skipSeparator s).length ≤ s.length := by
  cases s with
  | nil => rfl
  | cons c s =>
    rw [skipSeparator]
    split_ifs <;> simp

theorem nextPart_length (c : Char) (s : Str) : (nextPart (c :: s)).2.length ≤ s.length := by
  have hrun (p : Char → Bool) (hp : p c = true) :
      (skipSeparator ((c :: s).dropWhile p)).length ≤ s.length := by
    rw [List.dropWhile_cons_of_pos hp]
    exact (skipSeparator_length _).trans (List.dropWhile_suffix p).length_le
  by_cases hdigit : c.isDigit = true
  · simpa [nextPart, first, hdigit] using hrun Char.isDigit hdigit
  by_cases halpha : c.isAlpha = true
  · simpa [nextPart, first, hdigit] using hrun Char.isAlpha halpha
  · simp [nextPart, first, hdigit, halpha, Char.isAlphanum, skipSeparator]

@[simp] theorem parts_nil : parts [] = [] := rfl

theorem partsFrom_fuel {n m : Nat} (hn : s.length ≤ n) (hm : s.length ≤ m) :
    partsFrom n s = partsFrom m s := by
  induction n generalizing s m with
  | zero =>
    obtain rfl := List.length_eq_zero_iff.mp (Nat.le_zero.mp hn)
    cases m <;> rfl
  | succ n ih =>
    cases s with
    | nil => cases m <;> rfl
    | cons c s =>
      obtain ⟨m, rfl⟩ := Nat.exists_eq_add_of_le' (Nat.one_le_of_lt hm)
      have hlen := nextPart_length c s
      simp only [List.length_cons] at hn hm
      have hrest : partsFrom n (nextPart (c :: s)).2 = partsFrom m (nextPart (c :: s)).2 :=
        ih (by omega) (by omega)
      simp [partsFrom, hrest]

theorem parts_cons (c : Char) (s : Str) : parts (c :: s) =
    .ofVal (nextPart (c :: s)).1 :: parts (nextPart (c :: s)).2 := by
  rw [parts, List.length_cons, partsFrom, if_neg (List.cons_ne_nil c s),
    partsFrom_fuel (nextPart_length c s) (Nat.le_refl _)]
  rfl

theorem compareParts_end {ps qs : List Part} (h : ps = [] ∨ qs = []) :
    compareParts ps qs = compareEnd ps qs := by
  rcases h with rfl | rfl
  · simp [compareParts]
  · cases ps <;> simp [compareParts]

theorem parts_eq_nil : parts s = [] ↔ s = [] := by
  cases s with
  | nil => simp
  | cons c s => simp [parts_cons]

theorem compareFinal_eq (h : a = [] ∨ b = []) :
    compareFinal a b = compareParts (parts a) (parts b) := by
  rw [compareParts_end (by simpa [parts_eq_nil] using h)]
  have hended : (nextPart []).1 = [] := rfl
  rcases h with rfl | rfl
  · cases b with
    | nil => rfl
    | cons c s =>
      rw [parts_cons]
      cases hval : (nextPart (c :: s)).1 with
      | nil => simp [compareFinal, hval, hended, Part.ofVal, compareEnd]
      | cons d val =>
        have hnul : (first []).isDigit = false := rfl
        simp only [compareFinal, hval, hended, hnul, Part.ofVal]
        split_ifs <;> simp_all [compareEnd]
  · cases a with
    | nil => rfl
    | cons c s =>
      rw [parts_cons]
      cases hval : (nextPart (c :: s)).1 with
      | nil => simp [compareFinal, hval, hended, Part.ofVal, compareEnd]
      | cons d val =>
        simp only [compareFinal, hval, hended, Part.ofVal, first, List.headD_cons]
        split_ifs <;> simp_all [compareEnd]

theorem compareLoop_eq {fuel : Nat} (h : a.length ≤ fuel) :
    compareLoop fuel a b = compareParts (parts a) (parts b) := by
  induction fuel generalizing a b with
  | zero =>
    obtain rfl := List.length_eq_zero_iff.mp (Nat.le_zero.mp h)
    exact compareFinal_eq (.inl rfl)
  | succ fuel ih =>
    by_cases hended : a = [] ∨ b = []
    · rw [compareLoop, if_pos hended, compareFinal_eq hended]
    · rw [compareLoop, if_neg hended]
      obtain ⟨c, s, rfl⟩ := List.exists_cons_of_ne_nil fun h => hended (.inl h)
      obtain ⟨d, t, rfl⟩ := List.exists_cons_of_ne_nil fun h => hended (.inr h)
      have hlen := nextPart_length c s
      have hrest := ih (a := (nextPart (c :: s)).2) (b := (nextPart (d :: t)).2)
        (hlen.trans (Nat.le_of_succ_le_succ h))
      rw [parts_cons, parts_cons, compareParts, hrest]
      have hless := subLess_iff (reads_nextPart (c :: s)) (reads_nextPart (d :: t))
      have hgreater := subGreater_iff (reads_nextPart (c :: s)) (reads_nextPart (d :: t))
      rcases Part.compare_cases (.ofVal (nextPart (c :: s)).1) (.ofVal (nextPart (d :: t)).1) with
        h | h | h
      · simp [hless, h]
      · simp [hless, hgreater, h]
      · simp [hless, hgreater, h]

theorem compare_eq (a b : Str) : compare a b = compareParts (parts a) (parts b) :=
  compareLoop_eq (Nat.le_refl _)

end Reading

section Laws

variable {p q r : Part} {ps qs rs : List Part}

theorem tooFar_iff (m n : Int) : tooFar m n = true ↔
    100 < (m - n) % 2 ^ 32 ∧ (m - n) % 2 ^ 32 < 2 ^ 31 ∨
    2 ^ 31 < (m - n) % 2 ^ 32 ∧ (m - n) % 2 ^ 32 < 2 ^ 32 - 100 := by
  simp only [tooFar, Int.bmod, bne_iff_ne, Bool.and_eq_true, decide_eq_true_eq]
  omega

theorem tooFar_swap (m n : Int) : tooFar n m = tooFar m n := by
  rw [Bool.eq_iff_iff, tooFar_iff, tooFar_iff]
  omega

theorem Part.compare_eq_zero : p.compare q = 0 ↔ p.Alike q := by
  cases p <;> cases q <;> simp [Part.compare, Part.Alike, sign_eq_zero]
  split_ifs with hfar
  · simp only [false_iff]
    rintro rfl
    simp [tooFar] at hfar
  · exact sign_eq_zero

theorem Part.compare_swap (h : ¬p.Far q) : q.compare p = -p.compare q := by
  cases p <;> cases q <;> simp_all [Part.compare, Part.Far, tooFar_swap]
  · exact sign_swap _ _
  · exact sign_swap _ _

theorem Part.compare_far (h : p.Far q) : p.compare q = -1 ∧ q.compare p = -1 := by
  cases p <;> cases q <;> simp_all [Part.compare, Part.Far, tooFar_swap]

theorem compareParts_swap : compareParts qs ps = -compareParts ps qs ↔ ¬Clash ps qs := by
  induction ps generalizing qs with
  | nil =>
    cases qs with
    | nil => simp [compareParts, compareEnd, Clash]
    | cons q qs => cases q <;> simp [compareParts, compareEnd, Clash]
  | cons p ps ih =>
    cases qs with
    | nil => cases p <;> simp [compareParts, compareEnd, Clash]
    | cons q qs =>
      by_cases hfar : p.Far q
      · obtain ⟨h, h'⟩ := Part.compare_far hfar
        simp [compareParts, Clash, hfar, h, h']
      have hswap := Part.compare_swap hfar
      simp only [compareParts, Clash, hfar, false_or, ← Part.compare_eq_zero, hswap]
      by_cases hzero : p.compare q = 0
      · simp [hzero, ih]
      · simp [hzero]

theorem Part.compare_trans (hpq : ¬p.Far q) (hqr : ¬q.Far r) (hpr : ¬p.Far r)
    (hparted : ¬TornHere (some p) (some q) (some r)) (h : p.compare q ≤ 0) (h' : q.compare r ≤ 0) :
    p.compare r ≤ 0 ∧ (p.compare r = 0 → p.compare q = 0 ∧ q.compare r = 0) := by
  cases p <;> cases q <;> cases r <;>
    simp_all [Part.compare, Part.Far, TornHere, Parted]

  case empty.number.number => exact sign_eq_zero.mpr rfl
  case number.empty.number => exact sign_nonpos.mpr le_rfl
  case number.number.empty => exact sign_eq_zero.mpr rfl
  case number.number.number => exact sign_trans h h'
  case word.word.word => exact sign_trans h h'

/-- Only an empty part is not greater than the end of a version. -/
theorem eq_empty_of_end (hclash : ¬Clash (p :: ps) []) (h : compareParts (p :: ps) [] ≤ 0) : p = .empty := by
  cases p with
  | empty => rfl
  | number n =>
    have hone : (1 : Int) ≤ 0 := h
    omega
  | word w => exact absurd trivial hclash

theorem compareParts_trans (hpq : ¬Clash ps qs) (hqr : ¬Clash qs rs) (hpr : ¬Clash ps rs)
    (htorn : ¬Torn ps qs rs) (h : compareParts ps qs ≤ 0) (h' : compareParts qs rs ≤ 0) :
    compareParts ps rs ≤ 0 := by
  induction ps generalizing qs rs with
  | nil =>
    cases rs with
    | nil => simp [compareParts, compareEnd]
    | cons r rs => cases r <;> simp [compareParts, compareEnd]
  | cons p ps ih =>
    cases qs with
    | nil =>
      cases rs with
      | nil => exact h
      | cons r rs =>
        obtain rfl := eq_empty_of_end hpq h
        have hparted : Parted none (some r) := by
          cases r with
          | empty => trivial
          | number n => trivial
          | word w => exact absurd trivial hqr
        exact absurd (Or.inl ⟨rfl, hparted⟩) htorn
    | cons q qs =>
      cases rs with
      | nil =>
        obtain rfl := eq_empty_of_end hqr h'
        have hparted : Parted (some p) none := by
          cases p with
          | empty => trivial
          | number n => trivial
          | word w => exact absurd trivial hpr
        exact absurd (Or.inr (.inl ⟨rfl, hparted⟩)) htorn
      | cons r rs =>
        simp only [Clash, not_or, not_and] at hpq hqr hpr
        simp only [Torn, not_or, not_and] at htorn
        simp only [compareParts] at h h' ⊢
        have hle : p.compare q ≤ 0 := by
          split_ifs at h with hzero <;> omega
        have hle' : q.compare r ≤ 0 := by
          split_ifs at h' with hzero <;> omega
        obtain ⟨hhead, hzeros⟩ := Part.compare_trans hpq.1 hqr.1 hpr.1 htorn.1 hle hle'
        split_ifs with hzero
        · obtain ⟨hz, hz'⟩ := hzeros hzero
          rw [if_pos hz] at h
          rw [if_pos hz'] at h'
          rw [Part.compare_eq_zero] at hzero hz hz'
          exact ih (hpq.2 hz) (hqr.2 hz') (hpr.2 hzero) (htorn.2 hz hz' hzero) h h'
        · exact hhead

end Laws

theorem not_clash_self (ps : List Part) : ¬Clash ps ps := by
  induction ps with
  | nil => simp [Clash]
  | cons p ps ih =>
    rintro (hfar | ⟨_, h⟩)
    · cases p <;> simp [Part.Far, tooFar] at hfar
    · exact ih h

theorem compare_self (a : Str) : compare a a = 0 := by
  have hswap := compareParts_swap.mpr (not_clash_self (parts a))
  rw [compare_eq]
  omega

/-- The comparison is antisymmetric on a pair of versions exactly when they do not clash. -/
theorem compare_swap_iff (a b : Str) : compare b a = -compare a b ↔ ¬Clash (parts a) (parts b) := by
  rw [compare_eq, compare_eq, compareParts_swap]

theorem less_iff (a b : Str) : Less a b ↔ compare a b < 0 := by
  rw [Less, compare_eq]
  generalize parts a = ps
  generalize parts b = qs
  induction ps generalizing qs with
  | nil =>
    cases qs with
    | nil => simp [compareParts, compareEnd]
    | cons q qs => cases q <;> simp [compareParts, compareEnd]
  | cons p ps ih =>
    cases qs with
    | nil => cases p <;> simp [compareParts, compareEnd]
    | cons q qs =>
      rw [compareParts]
      rcases Part.compare_cases p q with h | h | h
      · simp [h]
      · simpa [h] using ih qs
      · simp [h]

/-- Versions are sorted by an order if no two of them clash and no three are torn by an empty
part. -/
theorem sorts_without_clash (versions : Set Str)
    (hclash : ∀ a ∈ versions, ∀ b ∈ versions, ¬Clash (parts a) (parts b))
    (htorn : ∀ a ∈ versions, ∀ b ∈ versions, ∀ c ∈ versions, a ≠ b → b ≠ c → a ≠ c →
      ¬Torn (parts a) (parts b) (parts c)) :
    (∀ a, compare a a = 0) ∧
    (∀ a ∈ versions, ∀ b ∈ versions, compare b a = -compare a b) ∧
    IsStrictWeakOrder versions (fun a b => Less a.1 b.1) := by
  have hswap : ∀ a ∈ versions, ∀ b ∈ versions, compare b a = -compare a b :=
    fun a ha b hb => (compare_swap_iff a b).mpr (hclash a ha b hb)
  refine ⟨compare_self, hswap, ?_⟩
  simp only [less_iff]
  refine isStrictWeakOrder hswap fun a ha b hb c hc hab hbc => ?_
  -- with two of the three equal there is nothing to carry over
  by_cases heq : a = b
  · exact heq ▸ hbc
  by_cases heq' : b = c
  · exact heq' ▸ hab
  by_cases heq'' : a = c
  · rw [heq'', compare_self]
  rw [compare_eq] at hab hbc ⊢
  exact compareParts_trans (hclash a ha b hb) (hclash b hb c hc) (hclash a ha c hc)
    (htorn a ha b hb c hc heq heq' heq'') hab hbc

section Tests

instance : DecidableRel Part.Alike
  | .empty, .empty | .empty, .number _ | .number _, .empty => isTrue trivial
  | .number m, .number n => inferInstanceAs (Decidable (m = n))
  | .word v, .word w => inferInstanceAs (Decidable (v = w))
  | .empty, .word _ | .number _, .word _ | .word _, .empty | .word _, .number _ => isFalse not_false

instance : DecidableRel Part.Far
  | .number m, .number n => inferInstanceAs (Decidable (tooFar m n = true))
  | .empty, _ | .word _, _ | .number _, .empty | .number _, .word _ => isFalse not_false

instance decidableClash : DecidableRel Clash
  | p :: ps, q :: qs =>
    have := decidableClash ps qs
    inferInstanceAs (Decidable (p.Far q ∨ (p.Alike q ∧ Clash ps qs)))
  | [], .word _ :: _ | .word _ :: _, [] => isTrue trivial
  | [], [] | [], .empty :: _ | [], .number _ :: _ | .empty :: _, [] | .number _ :: _, [] =>
    isFalse not_false

instance : DecidableRel Parted
  | none, some .empty | none, some (.number _) | some .empty, none | some (.number _), none =>
    isTrue trivial
  | some (.number m), some (.number n) => inferInstanceAs (Decidable (m ≠ n))
  | none, none | none, some (.word _) | some (.word _), _ | some .empty, some _
  | some (.number _), some .empty | some (.number _), some (.word _) => isFalse not_false

instance (p q r : Option Part) : Decidable (TornHere p q r) :=
  inferInstanceAs (Decidable (_ ∨ _ ∨ _))

instance decidableTorn : (ps qs rs : List Part) → Decidable (Torn ps qs rs)
  | p :: ps, q :: qs, r :: rs =>
    have := decidableTorn ps qs rs
    inferInstanceAs (Decidable (TornHere p q r ∨ (p.Alike q ∧ q.Alike r ∧ p.Alike r ∧ Torn ps qs rs)))
  | [], qs, rs => inferInstanceAs (Decidable (TornHere none qs.head? rs.head?))
  | p :: _, [], rs => inferInstanceAs (Decidable (TornHere (some p) none rs.head?))
  | p :: _, q :: _, [] => inferInstanceAs (Decidable (TornHere (some p) (some q) none))

def sampleVersions : List Str :=
  ["1.2.2", "1.2.12", "1.2.3.1", "1.2.3-rc2", "1.2.3-rc10"].map String.toList

theorem sorts_without_clash_sample :
    (∀ a, compare a a = 0) ∧
    (∀ a ∈ {s | s ∈ sampleVersions}, ∀ b ∈ {s | s ∈ sampleVersions}, compare b a = -compare a b) ∧
    IsStrictWeakOrder {s | s ∈ sampleVersions} (fun a b => Less a.1 b.1) := by
  have hclash : ∀ a ∈ sampleVersions, ∀ b ∈ sampleVersions, ¬Clash (parts a) (parts b) := by
    decide +kernel
  have htorn : ∀ a ∈ sampleVersions, ∀ b ∈ sampleVersions, ∀ c ∈ sampleVersions,
      a ≠ b → b ≠ c → a ≠ c → ¬Torn (parts a) (parts b) (parts c) := by
    decide +kernel
  exact sorts_without_clash {s | s ∈ sampleVersions} hclash htorn

/-- Versions skipped as too far, one that goes on with a letter, and an empty part between two
numbers. -/
theorem compare_not_order :
    ¬IsStrictWeakOrder Str Less ∧
    (Less "1.2.2".toList "2004-12-24".toList ∧ Less "2004-12-24".toList "1.2.2".toList) ∧
    (Less "1.2.3".toList "1.2.3a".toList ∧ Less "1.2.3a".toList "1.2.3".toList) ∧
    (¬Less "1.2".toList "1..".toList ∧ ¬Less "1..".toList "1.2".toList ∧
      ¬Less "1..".toList "1.3".toList ∧ ¬Less "1.3".toList "1..".toList ∧
      Less "1.2".toList "1.3".toList) := by
  refine ⟨fun h => ?_, by decide +kernel⟩
  have hless : Less "1.2.2".toList "2004-12-24".toList := by decide +kernel
  have hgreater : Less "2004-12-24".toList "1.2.2".toList := by decide +kernel
  exact h.irrefl _ (h.trans _ _ _ hless hgreater)

end Tests

end T2SDE.Version
