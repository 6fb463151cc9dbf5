import Mathlib.Tactic.SplitIfs
import T2SDE.Lib.Text

namespace Scanf

open Text

inductive Directive
  | white
  | lit (c : Char)
  | num
  | word
  | upTo (c : Char)

inductive Value
  | num (n : Int)
  | str (s : Str)
  deriving DecidableEq

def space (c : Char) : Bool := c == ' ' || (9 ≤ c.toNat && c.toNat ≤ 13)

/-- The directives of a format. -/
def directives : Str → List Directive
  | '%' :: 'd' :: format => .num :: directives format
  | '%' :: 's' :: format => .word :: directives format
  | '%' :: '[' :: '^' :: c :: ']' :: format => .upTo c :: directives format
  | c :: format => (if space c then .white else .lit c) :: directives format
  | [] => []

def readNat (s : Str) : Option (Nat × Str) :=
  if s.takeWhile Char.isDigit = [] then none
  else some (Nat.ofDigitChars 10 (s.takeWhile Char.isDigit) 0, s.dropWhile Char.isDigit)

def readInt : Str → Option (Int × Str)
  | '-' :: s => (readNat s).map fun r => (-(r.1 : Int), r.2)
  | '+' :: s => (readNat s).map fun r => ((r.1 : Int), r.2)
  | s => (readNat s).map fun r => ((r.1 : Int), r.2)

/-- The values up to the first directive that fails. -/
def scan : List Directive → Str → List Value
  | [], _ => []
  | .white :: ds, s => scan ds (s.dropWhile space)
  | .lit _ :: _, [] => []
  | .lit c :: ds, d :: s => if d = c then scan ds s else []
  | .num :: ds, s =>
    match readInt (s.dropWhile space) with
    | some r => .num r.1 :: scan ds r.2
    | none => []
  | .word :: ds, s =>
    let t := s.dropWhile space
    if t.takeWhile (!space ·) = [] then []
    else .str (t.takeWhile (!space ·)) :: scan ds (t.dropWhile (!space ·))
  | .upTo c :: ds, s =>
    if s.takeWhile (· != c) = [] then []
    else .str (s.takeWhile (· != c)) :: scan ds (s.dropWhile (· != c))

attribute [grind =] readInt scan

def sscanf (format : String) (s : Str) : List Value := scan (directives format.toList) s

theorem directives_char {c : Char} (hc : c ≠ '%') (format : Str) :
    directives (c :: format) = (if space c then .white else .lit c) :: directives format := by
  rw [directives]
  all_goals
    intros
    contradiction

/-- A number as `%d` prints it. -/
def signed : Int → Str
  | .ofNat n => digits n
  | .negSucc n => '-' :: digits (n + 1)

section Runs

variable {p : Char → Bool} {w s : Str}

theorem takeWhile_run (hw : ∀ c ∈ w, p c = true) (hs : ∀ c, s.head? = some c → p c = false) :
    (w ++ s).takeWhile p = w := by
  rw [List.takeWhile_append_of_pos hw]
  cases s with
  | nil => rw [List.takeWhile_nil, List.append_nil]
  | cons c s => rw [List.takeWhile_cons_of_neg (by simp [hs c rfl]), List.append_nil]

theorem dropWhile_run (hw : ∀ c ∈ w, p c = true) (hs : ∀ c, s.head? = some c → p c = false) :
    (w ++ s).dropWhile p = s := by
  rw [List.dropWhile_append_of_pos hw]
  cases s with
  | nil => rfl
  | cons c s => exact List.dropWhile_cons_of_neg (by simp [hs c rfl])

theorem dropWhile_none (hs : ∀ c, s.head? = some c → p c = false) : s.dropWhile p = s :=
  dropWhile_run (w := []) (by simp) hs

end Runs

section Numbers

variable {s : Str}

theorem space_of_digit {c : Char} (h : c.isDigit = true) : space c = false := by
  rw [Char.isDigit_iff_toNat] at h
  have hblank : ' '.toNat = 32 := rfl
  have h0 : '0'.toNat = 48 := rfl
  have hne : c ≠ ' ' := by
    rintro rfl
    omega
  simp [space, hne]
  omega

theorem readNat_digits (n : Nat) (hs : ∀ c, s.head? = some c → c.isDigit = false) :
    readNat (digits n ++ s) = some (n, s) := by
  have hdigits : ∀ c ∈ digits n, c.isDigit = true := fun c hc => digit_of_mem hc
  rw [readNat, takeWhile_run hdigits hs, dropWhile_run hdigits hs, if_neg (digits_ne_nil n), digits_value]

theorem readInt_signed (n : Int) (hs : ∀ c, s.head? = some c → c.isDigit = false) :
    readInt (signed n ++ s) = some (n, s) := by
  cases n with
  | ofNat n =>
    have hnat := readNat_digits n hs
    obtain ⟨c, t, hc⟩ := List.exists_cons_of_ne_nil (digits_ne_nil n)
    have hdigit : c.isDigit = true := digit_of_mem (n := n) (by simp [hc])
    rw [signed, hc, List.cons_append]
    rw [hc, List.cons_append] at hnat
    rw [readInt]
    · rw [hnat]
      rfl
    · rintro _ h
      rw [(List.cons.inj h).1] at hdigit
      exact absurd hdigit (by decide)
    · rintro _ h
      rw [(List.cons.inj h).1] at hdigit
      exact absurd hdigit (by decide)
  | negSucc n =>
    rw [signed, List.cons_append, readInt, readNat_digits (n + 1) hs]
    rfl

theorem signed_head (n : Int) {c : Char} (h : (signed n ++ s).head? = some c) : space c = false := by
  cases n with
  | ofNat n =>
    obtain ⟨d, t, hd⟩ := List.exists_cons_of_ne_nil (digits_ne_nil n)
    rw [signed, hd] at h
    obtain rfl : d = c := Option.some.inj h
    exact space_of_digit (digit_of_mem (n := n) (by simp [hd]))
  | negSucc n =>
    obtain rfl : '-' = c := Option.some.inj h
    rfl

end Numbers

section Scans

variable {ds : List Directive} {s : Str}

theorem scan_white {blanks : Str} (hblanks : ∀ c ∈ blanks, space c = true)
    (hs : ∀ c, s.head? = some c → space c = false) : scan (.white :: ds) (blanks ++ s) = scan ds s := by
  rw [scan, dropWhile_run hblanks hs]

theorem scan_num (n : Int) (hs : ∀ c, s.head? = some c → c.isDigit = false) :
    scan (.num :: ds) (signed n ++ s) = .num n :: scan ds s := by
  rw [scan, dropWhile_none fun c hc => signed_head n hc, readInt_signed n hs]

theorem scan_lits (w : Str) : scan (w.map .lit ++ ds) (w ++ s) = scan ds s := by
  induction w with
  | nil => rfl
  | cons c w ih => rw [List.map_cons, List.cons_append, List.cons_append, scan, if_pos rfl, ih]

theorem scan_lit_ne {c d : Char} (h : d ≠ c) : scan (.lit c :: ds) (d :: s) = [] := by
  rw [scan, if_neg h]

theorem takeWhile_delimited {c : Char} (w s : Str) :
    (w ++ c :: s).takeWhile (· != c) = w.takeWhile (· != c) := by
  induction w with
  | nil => simp
  | cons d w ih =>
    rw [List.cons_append, List.takeWhile_cons, List.takeWhile_cons, ih]

theorem scan_upTo (c : Char) (w s : Str) :
    scan (.upTo c :: ds) (w ++ c :: s) =
      if w.takeWhile (· != c) = [] then []
      else .str (w.takeWhile (· != c)) :: scan ds ((w ++ c :: s).dropWhile (· != c)) := by
  rw [scan, takeWhile_delimited]

theorem scan_upTo_free {c : Char} {w : Str} (hw : c ∉ w) (hne : w ≠ []) (s : Str) :
    scan (.upTo c :: ds) (w ++ c :: s) = .str w :: scan ds (c :: s) := by
  have hrun : ∀ d ∈ w, (d != c) = true := fun d hd => by simpa using fun h : d = c => hw (h ▸ hd)
  have hend : ∀ d, (c :: s).head? = some d → (d != c) = false := by
    intro d hd
    obtain rfl : c = d := Option.some.inj hd
    simp
  rw [scan, takeWhile_run hrun hend, dropWhile_run hrun hend, if_neg hne]

/-- A directive that no value is read for. -/
def Directive.mute : Directive → Bool
  | white | lit _ => true
  | _ => false

/-- A directive that a text is read for. -/
def Directive.text : Directive → Bool
  | word | upTo _ => true
  | _ => false

theorem scan_mute (h : ds.all Directive.mute = true) (s : Str) : scan ds s = [] := by
  induction ds generalizing s with
  | nil => rfl
  | cons d ds ih =>
    rw [List.all_cons, Bool.and_eq_true] at h
    cases d with
    | white =>
      rw [scan]
      exact ih h.2 _
    | lit c =>
      cases s with
      | nil => rfl
      | cons d s =>
        rw [scan]
        split_ifs
        · exact ih h.2 s
        · rfl
    | num => cases h.1
    | word => cases h.1
    | upTo c => cases h.1

/-- One text at most is read. -/
theorem scan_text {before after : List Directive} {d : Directive} (hbefore : before.all Directive.mute = true)
    (hd : d.text = true) (hafter : after.all Directive.mute = true) (s : Str) :
    scan (before ++ d :: after) s = [] ∨ ∃ w, scan (before ++ d :: after) s = [.str w] := by
  induction before generalizing s with
  | nil =>
    rw [List.nil_append]
    cases d with
    | word =>
      simp only [scan, scan_mute hafter]
      split_ifs
      · exact .inl rfl
      · exact .inr ⟨_, rfl⟩
    | upTo c =>
      rw [scan, scan_mute hafter]
      split_ifs
      · exact .inl rfl
      · exact .inr ⟨_, rfl⟩
    | white => cases hd
    | lit c => cases hd
    | num => cases hd
  | cons b before ih =>
    rw [List.all_cons, Bool.and_eq_true] at hbefore
    rw [List.cons_append]
    cases b with
    | white =>
      rw [scan]
      exact ih hbefore.2 _
    | lit c =>
      cases s with
      | nil => exact .inl rfl
      | cons d s =>
        rw [scan]
        split_ifs
        · exact ih hbefore.2 s
        · exact .inl rfl
    | num => cases hbefore.1
    | word => cases hbefore.1
    | upTo c => cases hbefore.1

end Scans

end Scanf
