import Mathlib.Algebra.Field.Rat
import Mathlib.Algebra.Order.Ring.Unbundled.Rat
import Mathlib.Data.List.Dedup
import Mathlib.Data.List.Perm.Basic
import T2SDE.ConfigFile
import T2SDE.Lib.ShellPattern
import T2SDE.Lib.StableSort

namespace T2SDE.ConfigLists

open Text StableSort

/-- A file of the tree whose name ends with `.in`; the names are such as `ls` and `read` keep as they are. -/
structure InFile where
  dir : Str
  stem : Str
  single : '/' ∉ stem
  plain : ∀ c ∈ dir ++ stem, c ∉ [' ', '\t', '\n', '\\']
  deriving DecidableEq

def InFile.base (f : InFile) : Str := f.stem ++ ".in".toList

def InFile.path (f : InFile) : Str := f.dir ++ '/' :: f.base

/-- `\([0-9]*\).in` at the start of a text: the digits, and what is behind the match. The dot stands
for any character. -/
def suffixAt (s : Str) : Option (Str × Str) :=
  match s.dropWhile Char.isDigit with
  | _ :: 'i' :: 'n' :: rest => some (s.takeWhile Char.isDigit, rest)
  | 'i' :: 'n' :: rest =>
    if s.takeWhile Char.isDigit = [] then none else some ((s.takeWhile Char.isDigit).dropLast, rest)
  | _ => none

/-- The last match of `-\([0-9]*\).in` -/
def lastSuffix : Str → Option (Str × Str)
  | [] => none
  | c :: s =>
    match lastSuffix s with
    | some found => some found
    | none => if c = '-' then suffixAt s else none

/-- `sed -n -e "s,.*-\([0-9]*\).in,\1,p"` -/
def prio (base : Str) : Str :=
  match lastSuffix base with
  | some (digits, rest) => digits ++ rest
  | none => []

/-- `${prio:-750}` -/
def field (base : Str) : Str := if prio base = [] then "750".toList else prio base

/-- `sed -e "s,-\([0-9]*\).in,.in,"` -/
def listName : Str → Str
  | [] => []
  | c :: s =>
    if c = '-' then
      match suffixAt s with
      | some (_, rest) => ".in".toList ++ rest
      | none => c :: listName s
    else c :: listName s

/-- `[ x -le n ]`; an integer that does not fit is an error. -/
def testLe (x : Str) (n : Int) : Bool :=
  match Config.number x with
  | some m => -2 ^ 63 ≤ m && m < 2 ^ 63 && m ≤ n
  | none => false

/-- The number at the start of a line, as `sort -n` reads it. -/
def numericKey (line : Str) : Rat :=
  let s := line.dropWhile fun c => c == ' ' || c == '\t'
  let s' := if s.head? = some '-' then s.drop 1 else s
  let behind := s'.dropWhile Char.isDigit
  let fraction := if behind.head? = some '.' then (behind.drop 1).takeWhile Char.isDigit else []
  let value : Rat := (Nat.ofDigitChars 10 (s'.takeWhile Char.isDigit) 0 : Rat) +
    (Nat.ofDigitChars 10 fraction 0 : Rat) / (10 ^ fraction.length : Nat)
  if s.head? = some '-' then -value else value

def InFile.line (f : InFile) : Str := field f.base ++ ' ' :: f.path

/-- `sed 's,^[^ ]* ,. ,g'` -/
def sourceLine (line : Str) : Str := if ' ' ∈ line then ". ".toList ++ (line.dropWhile (· != ' ')).drop 1
    else line

section Lists

variable (le : Str → Str → Prop) [DecidableRel le]

/-- `sort -u` -/
def sortUnique (lines : List Str) : List Str := lines.dedup.insertionSort le

/-- The order of `sort -n`, which compares the whole lines where the numbers are the same. -/
def NumericLe (a b : Str) : Prop := numericKey a < numericKey b ∨ numericKey a = numericKey b ∧ le a b

instance : DecidableRel (NumericLe le) := fun a b =>
  inferInstanceAs (Decidable (numericKey a < numericKey b ∨ numericKey a = numericKey b ∧ le a b))

/-- The names in `config{,-[a-z]*}{,-[0-9]*}.in` -/
def configPatterns : List Str :=
  ["config.in".toList, "config-[0-9]*.in".toList, "config-[a-z]*.in".toList, "config-[a-z]*-[0-9]*.in".toList]

def subconfigPattern : Str := "subconfig-[a-z]*.in".toList

/-- `ls` with the patterns: a file is listed once for each that matches it. -/
def listing (patterns : List Str) (files : List InFile) : List InFile :=
  patterns.flatMap fun p => files.filter fun f => Shell.covers p f.base

/-- The list of the fragments that are sourced in any case. -/
def noexpertList (files : List InFile) : List Str :=
  (sortUnique le (((listing configPatterns files).filter fun f =>
    testLe (field f.base) 500).map InFile.line)).map sourceLine

def expertList (files : List InFile) : List Str :=
  (sortUnique le (((listing configPatterns files).filter fun f =>
    !testLe (field f.base) 500).map InFile.line)).map sourceLine

/-- The names of the lists, of which only those are looked up that are like the names of the files. -/
def listNames (files : List InFile) : List Str :=
  ((listing [subconfigPattern] files).map fun f => listName f.base).dedup.filter
    (Shell.covers subconfigPattern)

/-- The list with a name, of the files that are found. -/
def subconfigList (found : List InFile) (name : Str) : List Str :=
  (((found.filter fun f => listName f.base = name).map InFile.line).insertionSort (NumericLe le)).map
    sourceLine

/-- The lists of the `subconfig` fragments, with their names. Where there is none, the pattern
itself is the name of an empty list. -/
def subconfigLists (files : List InFile) : List (Str × List Str) :=
  if listNames files = [] then [(subconfigPattern, [])]
  else (listNames files).map fun name => (name, subconfigList le (listing [subconfigPattern] files) name)

end Lists

/-- The text behind the last dash of a name. -/
def behindDash : Str → Option Str
  | [] => none
  | c :: s =>
    match behindDash s with
    | some t => some t
    | none => if c = '-' then some s else none

/-- The digits at the end of a name, behind a dash. -/
def InFile.suffix (f : InFile) : Option Str :=
  (behindDash f.stem).filter fun digits => digits ≠ [] ∧ digits.all Char.isDigit

def InFile.priority (f : InFile) : Nat := f.suffix.elim 750 fun digits => Nat.ofDigitChars 10 digits 0

/-- What stands for the priority of a file: its suffix, if it has one. -/
def InFile.text (f : InFile) : Str := f.suffix.getD (field f.base)

def InFile.source (f : InFile) : Str := ". ".toList ++ f.path

/-- Lines that source some files, each once, by ascending priority. -/
def Sources (lines : List Str) (files : List InFile) : Prop :=
  ∃ l : List InFile, lines = l.map InFile.source ∧ l.Perm files ∧ l.Pairwise fun f g =>
    f.priority ≤ g.priority

section Names

variable {s ds rest : Str}

theorem suffixAt_some (h : suffixAt s = some (ds, rest)) :
    (∀ c ∈ ds, c.isDigit = true) ∧ ∃ c, s = ds ++ c :: 'i' :: 'n' :: rest := by
  have hsplit : s = s.takeWhile Char.isDigit ++ s.dropWhile Char.isDigit :=
    List.takeWhile_append_dropWhile.symm
  have hdigits : ∀ c ∈ s.takeWhile Char.isDigit, c.isDigit = true := List.all_eq_true.mp List.all_takeWhile
  unfold suffixAt at h
  split at h
  next c rest' hdrop =>
    obtain ⟨rfl, rfl⟩ := Prod.mk.inj (Option.some.inj h)
    rw [hdrop] at hsplit
    exact ⟨hdigits, c, hsplit⟩
  next rest' _ hdrop =>
    by_cases hnil : s.takeWhile Char.isDigit = []
    · rw [if_pos hnil] at h
      cases h
    · -- the dot of the pattern takes the last of the digits
      rw [if_neg hnil] at h
      obtain ⟨rfl, rfl⟩ := Prod.mk.inj (Option.some.inj h)
      rw [hdrop, ← List.dropLast_append_getLast hnil, List.append_assoc, List.singleton_append] at hsplit
      exact ⟨fun c hc => hdigits c (List.mem_of_mem_dropLast hc), _, hsplit⟩
  next => cases h

theorem suffixAt_digits (hds : ∀ c ∈ ds, c.isDigit = true) :
    suffixAt (ds ++ ".in".toList) = some (ds, []) := by
  have htake : (ds ++ ".in".toList).takeWhile Char.isDigit = ds := by
    rw [List.takeWhile_append_of_pos hds]
    exact List.append_nil ds
  have hdrop : (ds ++ ".in".toList).dropWhile Char.isDigit = ".in".toList := by
    rw [List.dropWhile_append_of_pos hds]
    rfl
  rw [suffixAt, htake, hdrop]
  rfl

theorem lastSuffix_some (h : lastSuffix s = some (ds, rest)) :
    (∀ c ∈ ds, c.isDigit = true) ∧ ∃ a c, s = a ++ '-' :: (ds ++ c :: 'i' :: 'n' :: rest) := by
  induction s with
  | nil => cases h
  | cons d s ih =>
    rw [lastSuffix] at h
    split at h
    next found hfound =>
      obtain ⟨hds, a, c, rfl⟩ := ih (hfound.trans h)
      exact ⟨hds, d :: a, c, rfl⟩
    next =>
      by_cases hd : d = '-'
      · rw [if_pos hd] at h
        obtain ⟨hds, c, rfl⟩ := suffixAt_some h
        exact ⟨hds, [], c, by rw [hd, List.nil_append]⟩
      · rw [if_neg hd] at h
        cases h

theorem lastSuffix_free (h : '-' ∉ s) : lastSuffix s = none := by
  induction s with
  | nil => rfl
  | cons c s ih =>
    have hc : c ≠ '-' := fun h' => h (by simp [h'])
    have hs : '-' ∉ s := fun h' => h (List.mem_cons_of_mem c h')
    rw [lastSuffix, ih hs]
    exact if_neg hc

theorem lastSuffix_append {found : Str × Str} (a : Str) (hs : '-' ∉ s) (hat : suffixAt s = some found) :
    lastSuffix (a ++ '-' :: s) = some found := by
  induction a with
  | nil =>
    rw [List.nil_append, lastSuffix, lastSuffix_free hs]
    exact (if_pos rfl).trans hat
  | cons c a ih => rw [List.cons_append, lastSuffix, ih]

theorem behindDash_free (h : '-' ∉ s) : behindDash s = none := by
  induction s with
  | nil => rfl
  | cons c s ih =>
    have hc : c ≠ '-' := fun h' => h (by simp [h'])
    have hs : '-' ∉ s := fun h' => h (List.mem_cons_of_mem c h')
    rw [behindDash, ih hs]
    exact if_neg hc

theorem behindDash_append (a : Str) (hs : '-' ∉ s) : behindDash (a ++ '-' :: s) = some s := by
  induction a with
  | nil =>
    rw [List.nil_append, behindDash, behindDash_free hs]
    exact if_pos rfl
  | cons c a ih => rw [List.cons_append, behindDash, ih]

theorem behindDash_some {t : Str} (h : behindDash s = some t) : ∃ a, s = a ++ '-' :: t := by
  induction s with
  | nil => cases h
  | cons d s ih =>
    rw [behindDash] at h
    split at h
    next found hfound =>
      obtain ⟨a, rfl⟩ := ih (hfound.trans h)
      exact ⟨d :: a, rfl⟩
    next =>
      by_cases hd : d = '-'
      · rw [if_pos hd] at h
        obtain rfl := Option.some.inj h
        exact ⟨[], by rw [hd, List.nil_append]⟩
      · rw [if_neg hd] at h
        cases h

theorem dash_of_digits (h : ∀ c ∈ ds, c.isDigit = true) : '-' ∉ ds :=
  fun hdash => absurd (h '-' hdash) (by decide)

/-- A text of the test that ends with a letter is no number. -/
theorem number_of_letter {c : Char} (hs : ∀ d ∈ s, d ∉ [' ', '\t', '\n']) (hlast : s.getLast? = some c)
    (hc : c.isDigit = false) : Config.number s = none := by
  have hnatural : ∀ t : Str, t.getLast? = some c → Config.natural t = none := by
    intro t ht
    have hmem : c ∈ t := List.mem_of_getLast? ht
    refine if_neg fun h => ?_
    rw [List.all_eq_true.mp h.2 c hmem] at hc
    cases hc
  have htail : ∀ d t, s = d :: t → t = [] ∨ Config.natural t = none := by
    intro d t hst
    by_cases ht : t = []
    · exact .inl ht
    · refine .inr (hnatural t ?_)
      rw [← hlast, hst, List.getLast?_cons, List.getLast?_eq_some_getLast ht]
      rfl
  have hne : s ≠ [] := fun h => by simp [h] at hlast
  have hblank : ∀ d ∈ s, (d == ' ' || d == '\t' || d == '\n') = false := by
    intro d hd
    have := hs d hd
    simp only [List.mem_cons, List.not_mem_nil, or_false, not_or] at this
    simp [this]
  rw [Config.number, tokens_word hne hblank]
  split
  next digits heq =>
    rcases htail '-' digits (List.cons.inj heq).1 with rfl | h
    · rfl
    · rw [h]
      rfl
  next digits heq =>
    rcases htail '+' digits (List.cons.inj heq).1 with rfl | h
    · rfl
    · exact h
  next digits _ _ heq =>
    rw [← (List.cons.inj heq).1]
    exact hnatural s hlast
  next => rfl

theorem number_digits (hne : ds ≠ []) (hds : ∀ c ∈ ds, c.isDigit = true) :
    Config.number ds = some (Nat.ofDigitChars 10 ds 0 : Nat) := by
  have hblank : ∀ d ∈ ds, (d == ' ' || d == '\t' || d == '\n') = false := by
    intro d hd
    have hsep : ∀ c : Char, c.isDigit = false → d ≠ c := by
      rintro c hc rfl
      rw [hds d hd] at hc
      cases hc
    simp [hsep ' ' (by decide), hsep '\t' (by decide), hsep '\n' (by decide)]
  rw [Config.number, tokens_word hne hblank]
  split
  next digits heq =>
    obtain ⟨rfl, -⟩ := List.cons.inj heq
    exact absurd (hds '-' (by simp)) (by decide)
  next digits heq =>
    obtain ⟨rfl, -⟩ := List.cons.inj heq
    exact absurd (hds '+' (by simp)) (by decide)
  next digits _ _ heq =>
    rw [← (List.cons.inj heq).1]
    exact if_pos ⟨hne, List.all_eq_true.mpr hds⟩
  next h => exact absurd rfl (h ds)

end Names

section ListNames

variable {s t : Str} {c : Char}

theorem covers_subconfig (s : Str) :
    Shell.covers subconfigPattern s = true ↔
      ∃ c t, s = "subconfig-".toList ++ c :: t ∧ ('a'.toNat ≤ c.toNat ∧ c.toNat ≤ 'z'.toNat) ∧
      ".in".toList <:+ t := by
  have hpieces : Shell.pieces subconfigPattern.length subconfigPattern =
      "subconfig-".toList.map .char ++ .oneOf false [.range 'a' 'z'] :: .run :: ".in".toList.map .char := rfl
  rw [Shell.covers, hpieces, Shell.coversPieces_chars_append]
  constructor
  · rintro ⟨u, rfl, hu⟩
    cases u with
    | nil => cases hu
    | cons c t =>
      obtain ⟨hc, ht⟩ := Bool.and_eq_true_iff.mp hu
      obtain ⟨v, hv, hvin⟩ := (Shell.coversPieces_run _ t).mp ht
      rw [Shell.coversPieces_chars] at hvin
      refine ⟨c, t, rfl, ?_, hvin ▸ hv⟩
      simpa [Shell.Piece.admits, Shell.Member.admits] using hc
  · rintro ⟨c, t, rfl, hc, ht⟩
    refine ⟨c :: t, rfl, Bool.and_eq_true_iff.mpr ⟨?_, ?_⟩⟩
    · simpa [Shell.Piece.admits, Shell.Member.admits] using hc
    · exact (Shell.coversPieces_run _ t).mpr ⟨".in".toList, ht, (Shell.coversPieces_chars _ _).mpr rfl⟩

theorem suffixAt_letter (hc : c.isDigit = false) {found : Str × Str} (h : suffixAt (c :: t) = some found) :
    ∃ rest, t = 'i' :: 'n' :: rest ∧ found = ([], rest) := by
  obtain ⟨ds, rest⟩ := found
  obtain ⟨hds, d, hct⟩ := suffixAt_some h
  cases ds with
  | nil => exact ⟨rest, (List.cons.inj hct).2, rfl⟩
  | cons d ds =>
    rw [(List.cons.inj hct).1, hds d (by simp)] at hc
    cases hc

theorem listName_append (hs : '-' ∉ s) (t : Str) : listName (s ++ t) = s ++ listName t := by
  induction s with
  | nil => rfl
  | cons c s ih =>
    have hc : c ≠ '-' := fun h => hs (by simp [h])
    rw [List.cons_append, listName, if_neg hc, ih fun h => hs (List.mem_cons_of_mem c h)]
    rfl

/-- The end of a name is not cut within by a match. -/
theorem in_of_match {a rest : Str} (h : ".in".toList <:+ a ++ 'i' :: 'n' :: rest) :
    rest = [] ∨ ".in".toList <:+ rest := by
  obtain ⟨v, hv⟩ := h
  have hcut : v ++ ".in".toList = (a ++ ['i', 'n']) ++ rest := by simpa using hv
  rcases List.append_eq_append_iff.mp hcut with ⟨u, hu, hrest⟩ | ⟨u, -, hrest⟩
  · have hlast : u = [] ∨ u.getLast? = some 'n' := by
      by_cases hnil : u = []
      · exact .inl hnil
      · refine .inr ?_
        have hend : (a ++ ['i', 'n']).getLast? = u.getLast? := by
          rw [hu, List.getLast?_append, List.getLast?_eq_some_getLast hnil]
          rfl
        rw [← hend]
        simp
    have hprefix : u ∈ ".in".toList.inits := (List.mem_inits _ _).mpr ⟨rest, hrest.symm⟩
    have hends : ∀ u ∈ ".in".toList.inits, u = [] ∨ u.getLast? = some 'n' →
      u = [] ∨ u = ".in".toList := by decide
    rcases hends u hprefix hlast with rfl | rfl
    · exact .inr (hrest ▸ List.suffix_rfl)
    · exact .inl (List.append_cancel_left (hrest.symm.trans (List.append_nil _).symm))
  · exact .inr ⟨u, hrest.symm⟩

/-- What is replaced in a name leaves the end of it. -/
theorem listName_in (h : ".in".toList <:+ s) : ".in".toList <:+ listName s := by
  induction s with
  | nil => exact absurd (List.eq_nil_of_suffix_nil h) (by decide)
  | cons c s ih =>
    have hkeep : ".in".toList <:+ c :: listName s := by
      rcases List.suffix_cons_iff.mp h with heq | hs
      · rw [← (List.cons.inj heq).1, ← (List.cons.inj heq).2]
        exact List.suffix_rfl
      · exact (ih hs).trans (List.suffix_cons c _)
    rw [listName]
    split
    next =>
      split
      next ds rest hfound =>
        obtain ⟨-, d, rfl⟩ := suffixAt_some hfound
        have hcut : c :: (ds ++ d :: 'i' :: 'n' :: rest) = (c :: ds ++ [d]) ++ 'i' :: 'n' :: rest := by simp
        rcases in_of_match (hcut ▸ h) with rfl | hrest
        · exact List.suffix_rfl
        · exact hrest.trans (List.suffix_append _ rest)
      next => exact hkeep
    next => exact hkeep

/-- A name with a letter and `in` behind its first dash loses this dash. -/
theorem covers_listName (hs : Shell.covers subconfigPattern s = true) :
    Shell.covers subconfigPattern (listName s) = true ↔ ∀ c t,
    s ≠ "subconfig-".toList ++ c :: 'i' :: 'n' :: t := by
  obtain ⟨c, t, rfl, hc, ht⟩ := (covers_subconfig s).mp hs
  have hletter : c.isDigit = false := by
    refine Bool.eq_false_iff.mpr fun h => ?_
    have hle : c.toNat ≤ '9'.toNat := by
      have := (Bool.and_eq_true_iff.mp h).2
      exact of_decide_eq_true this
    exact absurd (hc.1.trans hle) (by decide)
  have hdash : c ≠ '-' := by
    rintro rfl
    exact absurd hc.1 (by decide)
  have hname : listName ("subconfig-".toList ++ c :: t) = "subconfig".toList ++ listName ('-' :: c :: t) :=
    listName_append (s := "subconfig".toList) (by decide) ('-' :: c :: t)
  rw [hname, listName, if_pos rfl]
  split
  next ds rest hfound =>
    obtain ⟨rest', rfl, -⟩ := suffixAt_letter hletter hfound
    constructor
    · intro h
      obtain ⟨d, u, heq, -⟩ := (covers_subconfig _).mp h
      have hdash : ".in".toList ++ rest = '-' :: d :: u := List.append_cancel_left heq
      cases hdash
    · intro h
      exact absurd rfl (h c rest')
  next hnone =>
    refine ⟨fun _ d u heq => ?_, fun _ => (covers_subconfig _).mpr ⟨c, listName t, ?_, hc, listName_in ht⟩⟩
    · obtain ⟨rfl, rfl⟩ := List.cons.inj (List.append_cancel_left heq)
      have hat : suffixAt (c :: 'i' :: 'n' :: u) = some ([], u) := by
        simp [suffixAt, hletter]
      rw [hat] at hnone
      cases hnone
    · rw [listName, if_neg hdash]
      rfl

end ListNames

section Files

variable {f g : InFile} {ds : Str}

theorem base_plain (f : InFile) : ∀ c ∈ f.base, c ∉ [' ', '\t', '\n', '\\'] := by
  intro c hc
  rcases List.mem_append.mp hc with hc | hc
  · exact f.plain c (List.mem_append_right _ hc)
  · exact not_mem_of_all rfl c hc

theorem slash_base (f : InFile) : '/' ∉ f.base := by
  intro h
  rcases List.mem_append.mp h with h | h
  · exact f.single h
  · exact absurd h (by decide)

theorem path_injective : Function.Injective InFile.path := by
  intro f g h
  have hbase : f.base = g.base :=
    eq_of_suffix_sep (slash_base f) (slash_base g) (h ▸ List.suffix_rfl : f.path <:+ g.path)
  have hstem : f.stem = g.stem := List.append_cancel_right hbase
  have hdir : f.dir = g.dir := by
    rw [InFile.path, InFile.path, hbase] at h
    exact List.append_cancel_right h
  cases f
  cases g
  cases hstem
  cases hdir
  rfl

theorem source_injective : Function.Injective InFile.source :=
  fun _ _ h => path_injective (List.append_cancel_left h)

/-- The priority that sed reads is made of characters of the name. -/
theorem field_plain (f : InFile) : ∀ c ∈ field f.base, c ∉ [' ', '\t', '\n'] := by
  have hbase : ∀ c ∈ f.base, c ∉ [' ', '\t', '\n'] :=
    fun c hc h => base_plain f c hc (List.mem_append_left ['\\'] h)
  rw [field]
  split
  next => exact not_mem_of_all rfl
  next =>
    rw [prio]
    split
    next ds rest hfound =>
      obtain ⟨-, a, d, hname⟩ := lastSuffix_some hfound
      intro c hc
      refine hbase c ?_
      rw [hname]
      rcases List.mem_append.mp hc with h | h
      · simp [h]
      · simp [h]
    next => simp

theorem blank_field (f : InFile) : ' ' ∉ field f.base := fun h => field_plain f ' ' h (by decide)

theorem line_injective : Function.Injective InFile.line := by
  intro f g h
  have hfield : field f.base = field g.base :=
    eq_of_prefix_sep (blank_field f) (blank_field g) (h ▸ List.prefix_rfl : f.line <+: g.line)
  rw [InFile.line, InFile.line, hfield] at h
  exact path_injective (List.cons.inj (List.append_cancel_left h)).2

theorem sourceLine_line (f : InFile) : sourceLine f.line = f.source := by
  have hmem : ' ' ∈ f.line := by simp [InFile.line]
  have hword : ∀ c ∈ field f.base, (c != ' ') = true := by
    intro c hc
    refine bne_iff_ne.mpr ?_
    rintro rfl
    exact blank_field f hc
  rw [sourceLine, if_pos hmem, InFile.line, List.dropWhile_append_of_pos hword]
  rfl

theorem suffix_some (h : f.suffix = some ds) :
    ds ≠ [] ∧ (∀ c ∈ ds, c.isDigit = true) ∧ ∃ a, f.stem = a ++ '-' :: ds := by
  obtain ⟨hbehind, hdigits⟩ := Option.filter_eq_some_iff.mp h
  have hdigits := of_decide_eq_true hdigits
  exact ⟨hdigits.1, List.all_eq_true.mp hdigits.2, behindDash_some hbehind⟩

theorem field_suffix (h : f.suffix = some ds) : field f.base = ds := by
  obtain ⟨hne, hds, a, hstem⟩ := suffix_some h
  have hdash : '-' ∉ ds ++ ".in".toList := by
    intro h
    rcases List.mem_append.mp h with h | h
    · exact dash_of_digits hds h
    · exact absurd h (by decide)
  have hbase : f.base = a ++ '-' :: (ds ++ ".in".toList) := by simp [InFile.base, hstem]
  have hprio : prio f.base = ds := by
    rw [hbase, prio, lastSuffix_append a hdash (suffixAt_digits hds)]
    exact List.append_nil ds
  rw [field, hprio, if_neg hne]

theorem text_eq (f : InFile) : f.text = field f.base := by
  rw [InFile.text]
  cases h : f.suffix with
  | none => rfl
  | some ds => exact (field_suffix h).symm

/-- A name without a suffix gives the default, or a text that ends as the name does. -/
theorem field_none (h : f.suffix = none) : field f.base = "750".toList ∨
    (field f.base).getLast? = some 'n' := by
  rw [field]
  split
  next => exact .inl rfl
  next hne =>
    refine .inr ?_
    rw [prio] at hne ⊢
    cases hfound : lastSuffix f.base with
    | none => exact absurd (by rw [hfound]) hne
    | some found =>
      obtain ⟨ds, rest⟩ := found
      obtain ⟨hds, a, c, hname⟩ := lastSuffix_some hfound
      rw [hfound] at hne
      by_cases hrest : rest = []
      · -- the digits are behind the last dash of the stem, and would be its suffix
        have hstem : f.stem = a ++ '-' :: ds := by
          have hcut : f.stem ++ ".in".toList = (a ++ '-' :: ds) ++ [c, 'i', 'n'] := by
            rw [← InFile.base, hname, hrest]
            simp
          exact (List.append_inj' hcut rfl).1
        have hsuffix : f.suffix = some ds := by
          rw [InFile.suffix, hstem, behindDash_append a (dash_of_digits hds)]
          refine Option.filter_eq_some_iff.mpr ⟨rfl, ?_⟩
          exact decide_eq_true ⟨by simpa [hrest] using hne, List.all_eq_true.mpr hds⟩
        rw [h] at hsuffix
        cases hsuffix
      · have hlast : f.base.getLast? = rest.getLast? := by
          rw [hname, List.getLast?_eq_some_getLast hrest]
          simp [List.getLast?_append, List.getLast?_cons, List.getLast?_eq_some_getLast hrest]
        have hn : f.base.getLast? = some 'n' := by simp [InFile.base]
        show (ds ++ rest).getLast? = some 'n'
        rw [List.getLast?_append, ← hlast, hn]
        rfl

theorem field_ne_nil (f : InFile) : field f.base ≠ [] := by
  rw [field]
  split
  next => decide
  next h => exact h

/-- A priority that is read as a number is the one of the file. -/
theorem priority_of_read (h : ∀ c ∈ field f.base, c.isDigit = true) :
    Nat.ofDigitChars 10 (field f.base) 0 = f.priority := by
  rw [InFile.priority]
  cases hs : f.suffix with
  | some ds => rw [field_suffix hs]; rfl
  | none =>
    rcases field_none hs with hfield | hlast
    · rw [hfield]
      rfl
    · exact absurd (h 'n' (List.mem_of_getLast? hlast)) (by decide)

theorem testLe_field (f : InFile) : testLe (field f.base) 500 = decide (f.priority ≤ 500) := by
  by_cases h : ∀ c ∈ field f.base, c.isDigit = true
  · rw [testLe, number_digits (field_ne_nil f) h, priority_of_read h, Bool.eq_iff_iff]
    show (decide (-2 ^ 63 ≤ (f.priority : Int)) && decide ((f.priority : Int) < 2 ^ 63) && decide
      ((f.priority : Int) ≤ 500)) = true ↔ _
    simp only [Bool.and_eq_true, decide_eq_true_eq]
    omega
  · cases hs : f.suffix with
    | some ds =>
      rw [field_suffix hs] at h
      exact absurd (suffix_some hs).2.1 h
    | none =>
      rcases field_none hs with hfield | hlast
      · rw [hfield] at h
        exact absurd (List.all_eq_true.mp rfl) h
      · rw [testLe, number_of_letter (field_plain f) hlast (by decide), InFile.priority, hs]
        rfl

theorem numericKey_line (h : ∀ c ∈ field f.base, c.isDigit = true) : numericKey f.line = f.priority := by
  obtain ⟨d, ds, hfield⟩ := List.exists_cons_of_ne_nil (field_ne_nil f)
  have hd : d.isDigit = true := h d (by simp [hfield])
  have hother : ∀ c : Char, c.isDigit = false → d ≠ c := by
    rintro c hc rfl
    rw [hd] at hc
    cases hc
  have hstart : f.line.dropWhile (fun c => c == ' ' || c == '\t') = f.line := by
    simp [InFile.line, hfield, hother ' ' (by decide), hother '\t' (by decide)]
  have hsign : f.line.head? ≠ some '-' := by simp [InFile.line, hfield, hother '-' (by decide)]
  have htake : f.line.takeWhile Char.isDigit = field f.base := by
    rw [InFile.line, List.takeWhile_append_of_pos h]
    exact List.append_nil _
  have hdrop : f.line.dropWhile Char.isDigit = ' ' :: f.path := List.dropWhile_append_of_pos h
  have hdot : (' ' :: f.path).head? ≠ some '.' := by simp
  simp only [numericKey, hstart, if_neg hsign, htake, hdrop, if_neg hdot, priority_of_read h]
  rw [Rat.div_def]
  simp

end Files

section Orders

variable (le : Str → Str → Prop)

/-- The order of the lines of files. -/
def ByLine (f g : InFile) : Prop := le f.line g.line

instance [DecidableRel le] : DecidableRel (ByLine le) :=
  fun f g => inferInstanceAs (Decidable (le f.line g.line))

instance [Std.Total le] : Std.Total (ByLine le) := ⟨fun f g => total_of le f.line g.line⟩

instance [IsTrans Str le] : IsTrans InFile (ByLine le) := ⟨fun _ _ _ => trans_of le⟩

instance [Std.Antisymm le] : Std.Antisymm (ByLine le) :=
  ⟨fun _ _ hfg hgf => line_injective (antisymm hfg hgf)⟩

instance [Std.Total le] : Std.Total (NumericLe le) where
  total a b := by
    rcases lt_trichotomy (numericKey a) (numericKey b) with h | h | h
    · exact .inl (.inl h)
    · exact (total_of le a b).imp (fun hab => .inr ⟨h, hab⟩) fun hba => .inr ⟨h.symm, hba⟩
    · exact .inr (.inl h)

instance [IsTrans Str le] : IsTrans Str (NumericLe le) where
  trans a b c hab hbc := by
    rcases hab with hab | ⟨hab, hle⟩
    · rcases hbc with hbc | ⟨hbc, -⟩
      · exact .inl (hab.trans hbc)
      · exact .inl (hbc ▸ hab)
    · rcases hbc with hbc | ⟨hbc, hle'⟩
      · exact .inl (hab ▸ hbc)
      · exact .inr ⟨hab.trans hbc, trans_of le hle hle'⟩

instance [Std.Antisymm le] : Std.Antisymm (NumericLe le) where
  antisymm a b hab hba := by
    rcases hab with hab | ⟨hab, hle⟩
    · rcases hba with hba | ⟨hba, -⟩
      · exact absurd hab (lt_asymm hba)
      · exact absurd hab hba.not_gt
    · rcases hba with hba | ⟨-, hle'⟩
      · exact absurd hba hab.not_gt
      · exact antisymm hle hle'

end Orders

section Sorting

variable {r : InFile → InFile → Prop} [DecidableRel r] [Std.Total r] [IsTrans InFile r] [Std.Antisymm r]
  {found files : List InFile}

/-- Sorted files are by ascending priority just if the order puts the ones with smaller priorities first. -/
theorem sources_sorted :
    Sources ((found.insertionSort r).map InFile.source) files ↔
      found.Perm files ∧ ∀ f ∈ found, ∀ g ∈ found, f.priority < g.priority → r f g := by
  have hperm := List.perm_insertionSort r found
  constructor
  · rintro ⟨l, hl, hlfiles, hpairs⟩
    obtain rfl := List.map_injective_iff.mpr source_injective hl
    refine ⟨hperm.symm.trans hlfiles, fun f hf g hg hlt => ?_⟩
    have hne : f ≠ g := by
      rintro rfl
      exact Nat.lt_irrefl _ hlt
    rcases StableSort.pair_sublist_total (hperm.mem_iff.mpr hf) (hperm.mem_iff.mpr hg) hne with hsub | hsub
    · exact List.pairwise_iff_forall_sublist.mp (List.pairwise_insertionSort r found) hsub
    · exact absurd hlt (Nat.not_lt.mpr (List.pairwise_iff_forall_sublist.mp hpairs hsub))
  · rintro ⟨hfiles, horder⟩
    refine ⟨found.insertionSort r, rfl, hperm.trans hfiles,
      List.pairwise_iff_forall_sublist.mpr fun {f g} hsub => ?_⟩
    have hf : f ∈ found := hperm.mem_iff.mp (hsub.subset (by simp))
    have hg : g ∈ found := hperm.mem_iff.mp (hsub.subset (by simp))
    refine Nat.le_of_not_lt fun hlt => ?_
    have hfg : r f g := List.pairwise_iff_forall_sublist.mp (List.pairwise_insertionSort r found) hsub
    obtain rfl := antisymm hfg (horder g hg f hf hlt)
    exact Nat.lt_irrefl _ hlt

end Sorting

section Law

variable (le : Str → Str → Prop) [DecidableRel le]

/-- The generated lists have every file once, by ascending priority, and the config files on their
side of 500. -/
structure InOrder (configs subconfigs : List InFile) : Prop where
  noexpert : Sources (noexpertList le configs) (configs.filter fun f => f.priority ≤ 500)
  expert : Sources (expertList le configs) (configs.filter fun f => 500 < f.priority)
  sorted : ∀ l ∈ subconfigLists le subconfigs, ∃ files, Sources l.2 files
  complete : ((subconfigLists le subconfigs).flatMap Prod.snd).Perm (subconfigs.map InFile.source)

/-- The names are found, and the texts of their priorities are in order as the priorities are. -/
structure Readable (configs subconfigs : List InFile) : Prop where
  found : ∀ f ∈ configs, ∃ p ∈ configPatterns, Shell.covers p f.base = true
  texts : ∀ f ∈ configs, ∀ g ∈ configs, (f.priority ≤ 500 ↔ g.priority ≤ 500) → f.priority < g.priority →
    le (f.text ++ ' ' :: f.path) (g.text ++ ' ' :: g.path)
  named : ∀ f ∈ subconfigs, Shell.covers subconfigPattern f.base = true ∧
    ∀ c s, f.base ≠ "subconfig-".toList ++ c :: 'i' :: 'n' :: s
  numbers : ∀ f ∈ subconfigs, ∀ g ∈ subconfigs, listName f.base = listName g.base → f.priority < g.priority →
    ((f.text ++ g.text).all Char.isDigit = true) ∨
      NumericLe le (f.text ++ ' ' :: f.path) (g.text ++ ' ' :: g.path)

variable {le} {files : List InFile}

theorem line_eq (f : InFile) : f.text ++ ' ' :: f.path = f.line := by rw [text_eq, InFile.line]

theorem mem_listing {patterns : List Str} {f : InFile} :
    f ∈ listing patterns files ↔ f ∈ files ∧ ∃ p ∈ patterns, Shell.covers p f.base = true := by
  simp only [listing, List.mem_flatMap, List.mem_filter]
  constructor
  · rintro ⟨p, hp, hf, hcovers⟩
    exact ⟨hf, p, hp, hcovers⟩
  · rintro ⟨hf, p, hp, hcovers⟩
    exact ⟨p, hp, hf, hcovers⟩

theorem fragments_eq (found : List InFile) :
    (sortUnique le (found.map InFile.line)).map sourceLine =
    (found.dedup.insertionSort (ByLine le)).map InFile.source := by
  rw [sortUnique, List.dedup_map_of_injective line_injective,
    ← List.map_insertionSort (ByLine le) le InFile.line _
    fun _ _ _ _ => Iff.rfl, List.map_map]
  exact List.map_congr_left fun f _ => sourceLine_line f

theorem subconfigList_eq (found : List InFile) (name : Str) :
    subconfigList le found name =
      ((found.filter fun f => listName f.base =
      name).insertionSort (ByLine (NumericLe le))).map InFile.source := by
  rw [subconfigList, ← List.map_insertionSort (ByLine (NumericLe le)) (NumericLe le) InFile.line _
    fun _ _ _ _ => Iff.rfl, List.map_map]
  exact List.map_congr_left fun f _ => sourceLine_line f

theorem mem_listNames {name : Str} :
    name ∈ listNames files ↔
      (∃ f ∈ listing [subconfigPattern] files, listName f.base = name) ∧
      Shell.covers subconfigPattern name = true := by
  rw [listNames, List.mem_filter, List.mem_dedup, List.mem_map]

theorem flatMap_subconfigLists :
    (subconfigLists le files).flatMap Prod.snd =
      (listNames files).flatMap (subconfigList le (listing [subconfigPattern] files)) := by
  rw [subconfigLists]
  split
  next h => rw [h]; rfl
  next => exact List.flatMap_map _ _ _

/-- The files of a list, name by name, are the files whose names are among these. -/
theorem grouped_perm {found : List InFile} {names : List Str} (hfound : found.Nodup) (hnames : names.Nodup) :
    (names.flatMap fun name => found.filter fun f => listName f.base = name).Perm
      (found.filter fun f => listName f.base ∈ names) := by
  refine (List.perm_ext_iff_of_nodup (List.nodup_flatMap.mpr ⟨fun _ _ => hfound.filter _, ?_⟩)
    (hfound.filter _)).mpr ?_
  · refine hnames.imp fun {n m} hnm f hn hm => hnm ?_
    simp only [List.mem_filter, decide_eq_true_eq] at hn hm
    rw [← hn.2, hm.2]
  · intro f
    simp only [List.mem_flatMap, List.mem_filter, decide_eq_true_eq]
    constructor
    · rintro ⟨name, hname, hf, rfl⟩
      exact ⟨hf, hname⟩
    · rintro ⟨hf, hname⟩
      exact ⟨_, hname, hf, rfl⟩

theorem complete_iff (hfiles : files.Nodup) :
    ((subconfigLists le files).flatMap Prod.snd).Perm (files.map InFile.source) ↔
      ∀ f ∈ files, Shell.covers subconfigPattern f.base = true ∧
        ∀ c s, f.base ≠ "subconfig-".toList ++ c :: 'i' :: 'n' :: s := by
  have hlisting : listing [subconfigPattern] files = files.filter fun f =>
    Shell.covers subconfigPattern f.base :=
    List.append_nil _
  have hnodup : (listing [subconfigPattern] files).Nodup := hlisting ▸ hfiles.filter _
  have hsorted : ((subconfigLists le files).flatMap Prod.snd).Perm
      (((listing [subconfigPattern] files).filter fun f =>
        listName f.base ∈ listNames files).map InFile.source) := by
    rw [flatMap_subconfigLists]
    refine List.Perm.trans ?_ ((grouped_perm hnodup ((List.nodup_dedup _).filter _)).map InFile.source)
    rw [List.map_flatMap]
    refine List.Perm.flatMap_left _ fun name _ => ?_
    rw [subconfigList_eq]
    exact (List.perm_insertionSort _ _).map _
  have hmem : ∀ f, f ∈ (listing [subconfigPattern] files).filter (fun f =>
    listName f.base ∈ listNames files) ↔
      f ∈ files ∧ Shell.covers subconfigPattern f.base = true ∧ ∀ c s,
        f.base ≠ "subconfig-".toList ++ c :: 'i' :: 'n' :: s := by
    intro f
    rw [List.mem_filter, decide_eq_true_eq, mem_listNames, mem_listing]
    simp only [List.mem_singleton, exists_eq_left]
    constructor
    · rintro ⟨⟨hf, hbase⟩, -, hname⟩
      exact ⟨hf, hbase, (covers_listName hbase).mp hname⟩
    · rintro ⟨hf, hbase, hname⟩
      exact ⟨⟨hf, hbase⟩, ⟨f, mem_listing.mpr ⟨hf, _, List.mem_singleton_self _, hbase⟩, rfl⟩,
        (covers_listName hbase).mpr hname⟩
  constructor
  · intro h f hf
    have hperm := hsorted.symm.trans h
    have hsource : f.source ∈ files.map InFile.source := List.mem_map_of_mem hf
    obtain ⟨g, hg, heq⟩ := List.mem_map.mp (hperm.mem_iff.mpr hsource)
    obtain rfl := source_injective heq
    exact ((hmem g).mp hg).2
  · intro h
    refine hsorted.trans
      (List.Perm.map _ ((List.perm_ext_iff_of_nodup (hnodup.filter _) hfiles).mpr fun f => ?_))
    rw [hmem]
    exact ⟨And.left, fun hf => ⟨hf, h f hf⟩⟩

variable [Std.Total le] [IsTrans Str le] [Std.Antisymm le]

/-- A list of config files, of those on one side of 500. -/
theorem sources_side (hfiles : files.Nodup) (side : InFile → Bool) :
    Sources ((sortUnique le (((listing configPatterns files).filter side).map InFile.line)).map sourceLine)
        (files.filter side) ↔
      (∀ f ∈ files, side f = true → ∃ p ∈ configPatterns, Shell.covers p f.base = true) ∧
        ∀ f ∈ files, ∀ g ∈ files, side f = true → side g = true → f.priority < g.priority →
        le f.line g.line := by
  have hmem : ∀ f, f ∈ ((listing configPatterns files).filter side).dedup ↔
      (f ∈ files ∧ ∃ p ∈ configPatterns, Shell.covers p f.base = true) ∧ side f = true := by
    intro f
    rw [List.mem_dedup, List.mem_filter, mem_listing]
  rw [fragments_eq, sources_sorted, List.perm_ext_iff_of_nodup (List.nodup_dedup _) (hfiles.filter side)]
  simp only [hmem, List.mem_filter]
  constructor
  · rintro ⟨hall, horder⟩
    have hfound : ∀ f ∈ files, side f = true → ∃ p ∈ configPatterns, Shell.covers p f.base = true :=
      fun f hf hside => ((hall f).mpr ⟨hf, hside⟩).1.2
    exact ⟨hfound, fun f hf g hg hsf hsg hlt =>
      horder f ⟨⟨hf, hfound f hf hsf⟩, hsf⟩ g ⟨⟨hg, hfound g hg hsg⟩, hsg⟩ hlt⟩
  · rintro ⟨hfound, horder⟩
    refine ⟨fun f => ⟨fun h => ⟨h.1.1, h.2⟩, fun h => ⟨⟨h.1, hfound f h.1 h.2⟩, h.2⟩⟩, ?_⟩
    exact fun f hf g hg hlt => horder f hf.1.1 g hg.1.1 hf.2 hg.2 hlt

theorem noexpert_iff (hfiles : files.Nodup) :
    Sources (noexpertList le files) (files.filter fun f => f.priority ≤ 500) ↔
      (∀ f ∈ files, f.priority ≤ 500 → ∃ p ∈ configPatterns, Shell.covers p f.base = true) ∧
        ∀ f ∈ files, ∀ g ∈ files, f.priority ≤ 500 → g.priority ≤ 500 → f.priority < g.priority →
        le f.line g.line := by
  have h := @sources_side le _ files _ _ _ hfiles fun f => decide (f.priority ≤ 500)
  simp only [decide_eq_true_eq] at h
  simp only [noexpertList, testLe_field]
  exact h

theorem expert_iff (hfiles : files.Nodup) :
    Sources (expertList le files) (files.filter fun f => 500 < f.priority) ↔
      (∀ f ∈ files, 500 < f.priority → ∃ p ∈ configPatterns, Shell.covers p f.base = true) ∧
        ∀ f ∈ files, ∀ g ∈ files, 500 < f.priority → 500 < g.priority → f.priority < g.priority →
        le f.line g.line := by
  have h := @sources_side le _ files _ _ _ hfiles fun f => decide (500 < f.priority)
  simp only [decide_eq_true_eq] at h
  have hside : ∀ f : InFile, (!testLe (field f.base) 500) = decide (500 < f.priority) := by
    intro f
    rw [testLe_field, Bool.eq_iff_iff]
    simp
  simp only [expertList, hside]
  exact h

theorem sorted_iff :
    (∀ l ∈ subconfigLists le files, ∃ fs, Sources l.2 fs) ↔
      ∀ f ∈ listing [subconfigPattern] files, ∀ g ∈ listing [subconfigPattern] files,
      listName f.base = listName g.base →
        Shell.covers subconfigPattern (listName f.base) = true → f.priority < g.priority →
        NumericLe le f.line g.line := by
  have hlist : ∀ name, (∃ fs, Sources (subconfigList le (listing [subconfigPattern] files) name) fs) ↔
      ∀ f ∈ listing [subconfigPattern] files, ∀ g ∈ listing [subconfigPattern] files, listName f.base = name →
        listName g.base = name → f.priority < g.priority → NumericLe le f.line g.line := by
    intro name
    simp only [subconfigList_eq, sources_sorted, List.mem_filter, decide_eq_true_eq]
    constructor
    · rintro ⟨fs, -, h⟩ f hf g hg hfn hgn hlt
      exact h f ⟨hf, hfn⟩ g ⟨hg, hgn⟩ hlt
    · intro h
      exact ⟨_, List.Perm.rfl, fun f hf g hg hlt => h f hf.1 g hg.1 hf.2 hg.2 hlt⟩
  have hnames : (∀ l ∈ subconfigLists le files, ∃ fs, Sources l.2 fs) ↔
      ∀ name ∈ listNames files, ∃ fs,
        Sources (subconfigList le (listing [subconfigPattern] files) name) fs := by
    rw [subconfigLists]
    split
    next h =>
      rw [h]
      simp only [List.mem_singleton, forall_eq, List.not_mem_nil, false_implies, implies_true, iff_true]
      exact ⟨[], [], rfl, List.Perm.rfl, List.Pairwise.nil⟩
    next => simp only [List.mem_map, forall_exists_index, and_imp, forall_apply_eq_imp_iff₂]
  rw [hnames]
  constructor
  · intro h f hf g hg heq hcovers hlt
    exact (hlist _).mp (h _ (mem_listNames.mpr ⟨⟨f, hf, rfl⟩, hcovers⟩)) f hf g hg rfl heq.symm hlt
  · intro h name hname
    refine (hlist name).mpr fun f hf g hg hfn hgn hlt => ?_
    have hcovers := (mem_listNames.mp hname).2
    exact h f hf g hg (hfn.trans hgn.symm) (hfn ▸ hcovers) hlt

/-- The lists are in order just if the names are found, and the texts of the priorities are in
order: as texts where the lists are sorted as texts, and as numbers where they are sorted by numbers
and one of them is not read as one. -/
theorem inOrder_iff {configs subconfigs : List InFile} (hconfigs : configs.Nodup)
    (hsubconfigs : subconfigs.Nodup) :
    InOrder le configs subconfigs ↔ Readable le configs subconfigs := by
  constructor
  · intro h
    obtain ⟨hfoundLow, hlow⟩ := (noexpert_iff hconfigs).mp h.noexpert
    obtain ⟨hfoundHigh, hhigh⟩ := (expert_iff hconfigs).mp h.expert
    have hnamed := (complete_iff hsubconfigs).mp h.complete
    refine ⟨fun f hf => ?_, fun f hf g hg hsides hlt => ?_, hnamed, fun f hf g hg heq hlt => .inr ?_⟩
    · rcases Nat.lt_or_ge 500 f.priority with hside | hside
      · exact hfoundHigh f hf hside
      · exact hfoundLow f hf hside
    · rw [line_eq, line_eq]
      rcases Nat.lt_or_ge 500 f.priority with hside | hside
      · exact hhigh f hf g hg hside (hside.trans hlt) hlt
      · exact hlow f hf g hg hside (hsides.mp hside) hlt
    · have hfound : ∀ f ∈ subconfigs, f ∈ listing [subconfigPattern] subconfigs := fun f hf =>
        mem_listing.mpr ⟨hf, _, List.mem_singleton_self _, (hnamed f hf).1⟩
      rw [line_eq, line_eq]
      exact sorted_iff.mp h.sorted f (hfound f hf) g (hfound g hg) heq
        ((covers_listName (hnamed f hf).1).mpr (hnamed f hf).2) hlt
  · intro h
    refine ⟨(noexpert_iff hconfigs).mpr ⟨fun f hf _ => h.found f hf, ?_⟩,
      (expert_iff hconfigs).mpr ⟨fun f hf _ => h.found f hf, ?_⟩, sorted_iff.mpr ?_,
      (complete_iff hsubconfigs).mpr h.named⟩
    · intro f hf g hg hside hside' hlt
      rw [← line_eq, ← line_eq]
      exact h.texts f hf g hg (iff_of_true hside hside') hlt
    · intro f hf g hg hside hside' hlt
      rw [← line_eq, ← line_eq]
      exact h.texts f hf g hg (iff_of_false (Nat.not_le.mpr hside) (Nat.not_le.mpr hside')) hlt
    · intro f hf g hg heq _ hlt
      rcases h.numbers f (mem_listing.mp hf).1 g (mem_listing.mp hg).1 heq hlt with hdigits | hle
      · -- both priorities are read as numbers, and the numbers decide
        have hread : ∀ c ∈ f.text ++ g.text, c.isDigit = true := List.all_eq_true.mp hdigits
        rw [text_eq, text_eq] at hread
        refine .inl ?_
        rw [numericKey_line fun c hc => hread c (List.mem_append_left _ hc),
          numericKey_line fun c hc => hread c (List.mem_append_right _ hc)]
        exact Rat.natCast_lt_natCast.mpr hlt
      · rwa [line_eq, line_eq] at hle

end Law

section Samples

/-- Whether a file has such a name. -/
def isPlain (dir stem : Str) : Bool :=
  !stem.contains '/' && (dir ++ stem).all fun c => !([' ', '\t', '\n', '\\'].contains c)

theorem single_of_isPlain {dir stem : Str} (h : isPlain dir stem = true) : '/' ∉ stem := by
  have hstem := (Bool.and_eq_true_iff.mp h).1
  simpa using hstem

theorem plain_of_isPlain {dir stem : Str} (h : isPlain dir stem = true) :
    ∀ c ∈ dir ++ stem, c ∉ [' ', '\t', '\n', '\\'] :=
  not_mem_of_all (Bool.and_eq_true_iff.mp h).2

def InFile.ofPlain (dir stem : Str) (h : isPlain dir stem = true) : InFile :=
  ⟨dir, stem, single_of_isPlain h, plain_of_isPlain h⟩

def linuxDir : Str := "package/base/linux".toList

def config : InFile := .ofPlain linuxDir "config".toList rfl

def configFifty : InFile := .ofPlain linuxDir "config-50".toList rfl

def configHundred : InFile := .ofPlain linuxDir "config-100".toList rfl

def configExtra : InFile := .ofPlain linuxDir "config-extra-600".toList rfl

def subconfigNine : InFile := .ofPlain linuxDir "subconfig-rescue-9".toList rfl

def subconfigTen : InFile := .ofPlain linuxDir "subconfig-rescue-10".toList rfl

/-- The numbers are in order though they have different lengths, where they are sorted as such. -/
theorem inOrder_sample :
    InOrder LineLe [configHundred, config, configExtra] [subconfigTen, subconfigNine] := by
  refine (inOrder_iff (by decide) (by decide)).mpr ⟨by decide, by decide, ?_, by decide⟩
  intro f hf
  refine ⟨by revert f; decide, fun c s h => ?_⟩
  have hat : f.base[11]? = some 'i' := by rw [h]; rfl
  clear h
  revert f
  decide

/-- A hundred is sorted in front of fifty. -/
theorem inOrder_hundred : ¬InOrder LineLe [configFifty, configHundred] [] := by
  intro h
  have horder := ((noexpert_iff (by decide)).mp h.noexpert).2
  exact absurd (horder configFifty (by decide) configHundred (by decide) (by decide) (by decide)
    (by decide)) (by decide)

end Samples

end T2SDE.ConfigLists
