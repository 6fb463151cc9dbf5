import Mathlib.Data.List.Forall2
import Mathlib.Data.List.TakeWhile
import T2SDE.UpdateVersion

namespace T2SDE.Version

open Text CString

section Extraction

def versionSep (c : Char) : Bool := c == '-' || c == '_'

/-- The loop of `ExtractFromFilename`, with the character in front of the one it has come to. -/
def extractLoop : Str → Char → Str → Str
  | version, _, [] => version
  | version, before, c :: s =>
    if c.isDigit then
      if version = [] then extractLoop (c :: s) c s
      else if versionSep before then c :: s
      else extractLoop version c s
    else extractLoop version c s

/-- `Version::ExtractFromFilename`; the scan starts behind the first character. -/
def extractFromFilename : Str → Str
  | [] => []
  | c :: s => extractLoop [] c s

attribute [grind =] extractLoop

/-- A digit stands behind a `-` or `_`. -/
def separated : Str → Bool
  | c :: d :: s => (versionSep c && d.isDigit) || separated (d :: s)
  | _ => false

variable {version name s v : Str} {before sep d : Char}

theorem separated_cons (h : separated (before :: d :: s) = false) :
    (versionSep before && d.isDigit) = false ∧ separated (d :: s) = false :=
  Bool.or_eq_false_iff.mp h

/-- Without such a digit the first start stays. -/
theorem extractLoop_keeps (hversion : version ≠ []) (h : separated (before :: s) = false) :
    extractLoop version before s = version := by
  induction s generalizing before with
  | nil => rfl
  | cons c s ih =>
    obtain ⟨hhere, hrest⟩ := separated_cons h
    rw [extractLoop]
    by_cases hdigit : c.isDigit = true
    · rw [hdigit, Bool.and_true] at hhere
      rw [if_pos hdigit, if_neg hversion, if_neg (by simp [hhere])]
      exact ih hrest
    · rw [if_neg hdigit]
      exact ih hrest

/-- With such a digit the text from there on is taken. -/
theorem extractLoop_shorter (hversion : version ≠ []) (h : separated (before :: s) = true) :
    (extractLoop version before s).length ≤ s.length := by
  induction s generalizing before with
  | nil => exact absurd h Bool.false_ne_true
  | cons c s ih =>
    rw [extractLoop]
    by_cases hhere : (versionSep before && c.isDigit) = true
    · obtain ⟨hsep, hdigit⟩ := Bool.and_eq_true_iff.mp hhere
      rw [if_pos hdigit, if_neg hversion, if_pos hsep]
    · have hrest : separated (c :: s) = true := (Bool.or_eq_true_iff.mp h).resolve_left hhere
      have hlength := Nat.le_succ_of_le (ih hrest)
      by_cases hdigit : c.isDigit = true
      · rw [hdigit, Bool.and_true] at hhere
        rw [if_pos hdigit, if_neg hversion, if_neg hhere]
        exact hlength
      · rw [if_neg hdigit]
        exact hlength

/-- A start that was found in the name gives way to the version behind the separator. -/
theorem extractLoop_overrides (hversion : version ≠ []) (hname : separated (before :: s) = false)
    (hsep : versionSep sep = true)
    (hdigit : d.isDigit = true) : extractLoop version before (s ++ sep :: d :: v) = d :: v := by
  have hnot : sep.isDigit = false := by
    simp only [versionSep, Bool.or_eq_true, beq_iff_eq] at hsep
    rcases hsep with rfl | rfl <;> decide
  induction s generalizing before with
  | nil =>
    rw [List.nil_append, extractLoop, if_neg (by simp [hnot]), extractLoop, if_pos hdigit,
      if_neg hversion, if_pos hsep]
  | cons c s ih =>
    obtain ⟨hhere, hrest⟩ := separated_cons hname
    rw [List.cons_append, extractLoop]
    by_cases hc : c.isDigit = true
    · rw [hc, Bool.and_true] at hhere
      rw [if_pos hc, if_neg hversion, if_neg (by simp [hhere])]
      exact ih hrest
    · rw [if_neg hc]
      exact ih hrest

theorem extractLoop_name (hname : separated (before :: s) = false) (hsep : versionSep sep = true)
    (hdigit : d.isDigit = true) :
    extractLoop [] before (s ++ sep :: d :: v) =
      if s.any Char.isDigit then d :: v else extractLoop (d :: v) d v := by
  have hnot : sep.isDigit = false := by
    simp only [versionSep, Bool.or_eq_true, beq_iff_eq] at hsep
    rcases hsep with rfl | rfl <;> decide
  induction s generalizing before with
  | nil =>
    rw [List.nil_append, extractLoop, if_neg (by simp [hnot]), extractLoop, if_pos hdigit, if_pos rfl]; rfl
  | cons c s ih =>
    obtain ⟨-, hrest⟩ := separated_cons hname
    rw [List.cons_append, extractLoop, List.any_cons]
    by_cases hc : c.isDigit = true
    · rw [if_pos hc, if_pos rfl, hc, Bool.true_or, if_pos rfl]
      exact extractLoop_overrides (List.cons_ne_nil _ _) hrest hsep hdigit
    · rw [if_neg hc, ih hrest, Bool.not_eq_true] at *
      rw [hc, Bool.false_or]

/-- The version is found behind the name when the name has a digit of its own behind its first
character, or the version has no further digit behind a separator. -/
theorem extractFromFilename_iff {v : Str} (name : Str) (hname : separated name = false) (sep : Char)
    (hsep : versionSep sep = true)
    (hv : (v.head?.any Char.isDigit) = true) :
    extractFromFilename (name ++ sep :: v) = v ↔ name.tail.any Char.isDigit = true ∨ separated v = false := by
  cases v with
  | nil => exact absurd hv (by decide)
  | cons d v =>
    have hdigit : d.isDigit = true := hv
    have hread : extractFromFilename (name ++ sep :: d :: v) =
        if name.tail.any Char.isDigit then d :: v else extractLoop (d :: v) d v := by
      cases name with
      | nil =>
        show extractLoop [] sep (d :: v) = _
        rw [extractLoop, if_pos hdigit, if_pos rfl]
        rfl
      | cons c name => exact extractLoop_name hname hsep hdigit
    rw [hread]
    by_cases hany : name.tail.any Char.isDigit = true
    · rw [if_pos hany]
      exact iff_of_true rfl (.inl hany)
    rw [if_neg hany]
    cases hseparated : separated (d :: v) with
    | false => exact iff_of_true (extractLoop_keeps (List.cons_ne_nil d v) hseparated) (.inr rfl)
    | true =>
      refine iff_of_false (fun heq => ?_) (by simp [hany])
      have hlength := extractLoop_shorter (List.cons_ne_nil d v) hseparated
      rw [heq, List.length_cons] at hlength
      omega

theorem extractFromFilename_gtk :
    extractFromFilename ("gtk2".toList ++ '-' :: "1.0-2".toList) = "1.0-2".toList ↔
    "gtk2".toList.tail.any Char.isDigit = true ∨ separated "1.0-2".toList = false :=
  extractFromFilename_iff "gtk2".toList (by decide) '-' (by decide) (by decide)

/-- The release behind the version is taken for the version. -/
theorem extractFromFilename_release : separated "gtk".toList = false ∧ versionSep '-' = true ∧
    ("1.0-2".toList.head?.any Char.isDigit) = true ∧
    extractFromFilename ("gtk".toList ++ '-' :: "1.0-2".toList) = "2".toList := by
  decide

end Extraction

section Scanning

-- what lies in memory behind the terminator of a string
variable (behind : Str → Nat → Char)

/-- `s[i]` -/
def charAt (s : Str) (i : Nat) : Char :=
  if i < s.length then s.getD i nul else if i = s.length then nul else behind s i

/-- What `next_part` extracts and returns, and the characters it reads. -/
structure Scan where
  val : Str
  next : Nat
  reads : List (Str × Nat)

/-- `subversion::next_part` -/
def nextPartAt (s : Str) (i : Nat) : Scan :=
  let typeMask : Char → Bool := if (charAt behind s i).isDigit then Char.isDigit else Char.isAlpha
  let val := (s.drop i).takeWhile typeMask
  let stop := i + val.length
  -- the loop ends at a character of another type, which is read once more, or at the size
  { val, next := if (charAt behind s stop).isAlphanum then stop else stop + 1,
    reads := (List.range' i (val.length + 1)).map (s, ·) }

/-- A verdict, with the characters that were read for it. -/
structure Verdict where
  sign : Int
  reads : List (Str × Nat)

/-- The step behind the loop of `compare`. -/
def compareFinalAt (a b : Str) (i j : Nat) : Verdict :=
  let subvA := nextPartAt behind a i
  let subvB := nextPartAt behind b j
  let sign :=
    if subvA.val ≠ [] then if (first subvA.val).isDigit then 1 else -1
    else if subvB.val ≠ [] then if (first subvA.val).isDigit then 1 else -1
    else 0
  ⟨sign, subvA.reads ++ subvB.reads⟩

/-- The loop of `compare`, none when the turns that are allowed do not suffice. -/
def compareLoopAt (a b : Str) : Nat → Nat → Nat → Option Verdict
  | 0, _, _ => none
  | turns + 1, i, j =>
    if i < a.length ∧ j < b.length then
      let subvA := nextPartAt behind a i
      let subvB := nextPartAt behind b j
      if subLess subvA.val subvB.val then some ⟨-1, subvA.reads ++ subvB.reads⟩
      else if subGreater subvA.val subvB.val then some ⟨1, subvA.reads ++ subvB.reads⟩
      else (compareLoopAt a b turns subvA.next subvB.next).map fun v =>
        { v with reads := subvA.reads ++ subvB.reads ++ v.reads }
    else some (compareFinalAt behind a b i j)

/-- `Version::compare` -/
def compareAt (a b : Str) : Option Verdict := compareLoopAt behind a b (a.length + 1) 0 0

/-- No index is greater than the length of its string. -/
def InRange (reads : List (Str × Nat)) : Prop := ∀ read ∈ reads, read.2 ≤ read.1.length

/-- The string ends with a separator, or is empty. -/
def EndsOpen (s : Str) : Prop := ∀ c ∈ s.getLast?, c.isAlphanum = false

variable {behind} {s a b : Str} {i j : Nat}

theorem inRange_append {xs ys : List (Str × Nat)} : InRange (xs ++ ys) ↔ InRange xs ∧ InRange ys :=
  List.forall_mem_append

theorem takeWhile_drop_length (p : Char → Bool) (s : Str) (i : Nat) (hi : i ≤ s.length) :
    i + ((s.drop i).takeWhile p).length ≤ s.length := by
  have hle := (List.takeWhile_prefix p (l := s.drop i)).length_le
  rw [List.length_drop] at hle
  omega

/-- A call that starts within the string stays in it. -/
theorem nextPartAt_inRange (hi : i ≤ s.length) : InRange (nextPartAt behind s i).reads := by
  intro read hread
  obtain ⟨n, hn, rfl⟩ := List.mem_map.mp hread
  have hle := takeWhile_drop_length (if (charAt behind s i).isDigit then Char.isDigit else Char.isAlpha) s
    i hi
  have hlt := (List.mem_range'_1.mp hn).2
  simp only at hlt ⊢
  omega

theorem nextPartAt_outside (hi : s.length < i) : ¬InRange (nextPartAt behind s i).reads := by
  intro h
  have hread := h (s, i) (List.mem_map.mpr ⟨i, List.mem_range'_1.mpr ⟨Nat.le_refl i, by omega⟩, rfl⟩)
  simp only at hread
  omega

theorem nextPartAt_inRange_iff : InRange (nextPartAt behind s i).reads ↔ i ≤ s.length :=
  ⟨fun h => Nat.not_lt.mp fun hi => nextPartAt_outside hi h, nextPartAt_inRange⟩

theorem charAt_drop (hi : i ≤ s.length) : charAt behind s i = first (s.drop i) := by
  rw [charAt, first, List.headD_eq_head?_getD, List.head?_drop]
  by_cases hlt : i < s.length
  · rw [if_pos hlt, List.getD_eq_getElem?_getD]
  · rw [if_neg hlt, if_pos (by omega), List.getElem?_eq_none (by omega), Option.getD_none]

/-- What is left where a run of characters ends. -/
theorem drop_run (p : Char → Bool) (s : Str) (i : Nat) :
    s.drop (i + ((s.drop i).takeWhile p).length) = (s.drop i).dropWhile p := by
  rw [← List.drop_drop]
  nth_rewrite 2 [← List.takeWhile_append_dropWhile (p := p) (l := s.drop i)]
  rw [List.drop_left]

/-- Where `next_part` stops: at the end, at a character of another type, or behind a separator. -/
theorem nextPartAt_stop (behind : Str → Nat → Char) (hi : i ≤ s.length) :
    let scan := nextPartAt behind s i
    let stop := i + scan.val.length
    scan.val = (nextPart (s.drop i)).1 ∧ stop ≤ s.length ∧
      (s.drop stop = [] ∧ scan.next = stop + 1 ∧ (nextPart (s.drop i)).2 = [] ∨
        ∃ c rest, s.drop stop = c :: rest ∧
          (c.isAlphanum = true ∧ scan.next = stop ∧ (nextPart (s.drop i)).2 = c :: rest ∨
            c.isAlphanum = false ∧ scan.next = stop + 1 ∧ (nextPart (s.drop i)).2 = rest)) := by
  intro scan stop
  have hval : scan.val = (nextPart (s.drop i)).1 := by
    show (s.drop i).takeWhile _ = (s.drop i).takeWhile _
    rw [charAt_drop hi]
  have hstop : stop ≤ s.length := takeWhile_drop_length _ s i hi
  have hnext : scan.next = if (charAt behind s stop).isAlphanum then stop else stop + 1 := rfl
  have hrest : (nextPart (s.drop i)).2 = skipSeparator (s.drop stop) := by
    have hrun : s.drop stop = (s.drop i).dropWhile _ := drop_run _ s i
    rw [hrun, charAt_drop hi]
    rfl
  refine ⟨hval, hstop, ?_⟩
  rw [hnext, hrest, charAt_drop hstop]
  cases hdrop : s.drop stop with
  | nil => exact .inl ⟨rfl, if_neg (by decide), rfl⟩
  | cons c rest =>
    right
    refine ⟨c, rest, rfl, ?_⟩
    rw [first, List.headD_cons, skipSeparator]
    cases hc : c.isAlphanum with
    | true => exact .inl ⟨rfl, if_pos rfl, if_pos rfl⟩
    | false => exact .inr ⟨rfl, if_neg Bool.false_ne_true, if_neg Bool.false_ne_true⟩

theorem val_nextPartAt (behind : Str → Nat → Char) (s : Str) (i : Nat) :
    (nextPartAt behind s i).val = (nextPart (s.drop i)).1 := by
  by_cases hi : i ≤ s.length
  · exact (nextPartAt_stop behind hi).1
  · rw [nextPartAt, List.drop_eq_nil_of_le (by omega)]
    rfl

theorem drop_next (behind : Str → Nat → Char) (s : Str) (i : Nat) :
    s.drop (nextPartAt behind s i).next = (nextPart (s.drop i)).2 := by
  by_cases hi : i ≤ s.length
  · obtain ⟨-, -, ⟨hdrop, hnext, hrest⟩ | ⟨c, rest, hdrop, ⟨-, hnext, hrest⟩ | ⟨-, hnext, hrest⟩⟩⟩ :=
      nextPartAt_stop behind hi
    · rw [hnext, hrest, ← List.drop_drop, hdrop, List.drop_nil]
    · rw [hnext, hrest, hdrop]
    · rw [hnext, hrest, ← List.drop_drop, hdrop]
      rfl
  · have hle : ∀ (more : Bool) (n : Nat), i ≤ if more then i + n else i + n + 1 := by
      intro more n
      cases more
      · exact Nat.le_add_right i (n + 1)
      · exact Nat.le_add_right i n
    have hnext : i ≤ (nextPartAt behind s i).next := hle _ _
    rw [List.drop_eq_nil_of_le (by omega), List.drop_eq_nil_of_le (by omega)]
    rfl

/-- In a string that is not used up `next_part` gets on. -/
theorem nextPartAt_advances (behind : Str → Nat → Char) (hi : i < s.length) :
    i < (nextPartAt behind s i).next := by
  have hdrop := congrArg List.length (drop_next behind s i)
  rw [List.drop_eq_getElem_cons hi, List.length_drop] at hdrop
  have hle := nextPart_length s[i] (s.drop (i + 1))
  rw [List.length_drop] at hle
  omega

/-- Where the calls have come to: within the string, or right behind the terminator if no separator
was there to end at. -/
def Placed (s : Str) (i : Nat) : Prop := s.length ≤ i → (i ≤ s.length ↔ EndsOpen s)

theorem placed_zero (s : Str) : Placed s 0 := by
  intro hle
  obtain rfl := List.length_eq_zero_iff.mp (Nat.le_zero.mp hle)
  exact iff_of_true (Nat.le_refl 0) (by simp [EndsOpen])

/-- Where a run of letters or digits goes on to the end, the string ends with one of them. -/
theorem last_of_run (hi : i < s.length) (hdrop : s.drop (i + (nextPartAt behind s i).val.length) = []) :
    ∃ c ∈ s.getLast?, c.isAlphanum = true := by
  have hrun : (s.drop i).dropWhile _ = [] := (drop_run _ s i).symm.trans hdrop
  have hall := List.dropWhile_eq_nil_iff.mp hrun
  have hne : s.drop i ≠ [] := by
    rw [ne_eq, List.drop_eq_nil_iff]
    omega
  refine ⟨(s.drop i).getLast hne, ?_, ?_⟩
  · rw [Option.mem_def, ← List.getLast?_eq_some_getLast hne, List.getLast?_drop, if_neg (by omega)]
  · have hlast := hall _ (List.getLast_mem hne)
    split at hlast
    · exact Bool.or_eq_true_iff.mpr (.inr hlast)
    · exact Bool.or_eq_true_iff.mpr (.inl hlast)

theorem placed_next (behind : Str → Nat → Char) (hi : i < s.length) :
    Placed s (nextPartAt behind s i).next := by
  intro hle
  obtain ⟨hval, hstop, hcases⟩ := nextPartAt_stop behind (Nat.le_of_lt hi)
  have hsplit : s = s.take (i + (nextPartAt behind s i).val.length) ++ s.drop
    (i + (nextPartAt behind s i).val.length) :=
    (List.take_append_drop _ s).symm
  rcases hcases with ⟨hdrop, hnext, -⟩ | ⟨c, rest, hdrop, ⟨-, hnext, -⟩ | ⟨hc, hnext, -⟩⟩
  · -- the run of letters or digits goes on to the end
    refine iff_of_false ?_ ?_
    · have := congrArg List.length hdrop
      rw [List.length_drop, List.length_nil] at this
      omega
    · intro hopen
      obtain ⟨c, hlast, hc⟩ := last_of_run hi hdrop
      exact absurd (hopen c hlast) (by simp [hc])
  · have := congrArg List.length hdrop
    rw [List.length_drop, List.length_cons] at this
    omega
  · have hlength := congrArg List.length hdrop
    rw [List.length_drop, List.length_cons] at hlength
    have hnil : rest = [] := List.length_eq_zero_iff.mp (by omega)
    refine iff_of_true (by omega) ?_
    rw [EndsOpen, hsplit, hdrop, hnil, List.getLast?_append_of_ne_nil _ (List.cons_ne_nil c [])]
    simpa using hc

/-- Two parts differ that have the same place in both versions. -/
def Differ : List Part → List Part → Prop
  | p :: ps, q :: qs => p.compare q ≠ 0 ∨ Differ ps qs
  | _, _ => False

/-- The comparison is decided by two parts, or the version that has fewer of them ends with a
separator (both of them, with as many). -/
def Covered (a b : Str) (ps qs : List Part) : Prop :=
  Differ ps qs ∨ (ps.length ≤ qs.length → EndsOpen a) ∧ (qs.length ≤ ps.length → EndsOpen b)

theorem parts_drop (behind : Str → Nat → Char) (hi : i < s.length) :
    parts (s.drop i) = .ofVal (nextPartAt behind s i).val :: parts (s.drop (nextPartAt behind s i).next) := by
  rw [val_nextPartAt, drop_next, List.drop_eq_getElem_cons hi]
  exact parts_cons _ _

theorem compareFinalAt_inRange : InRange (compareFinalAt behind a b i j).reads ↔
    i ≤ a.length ∧ j ≤ b.length := by
  rw [compareFinalAt, inRange_append, nextPartAt_inRange_iff, nextPartAt_inRange_iff]

/-- Behind the loop the version that is used up is read once more. -/
theorem covered_final (ha : Placed a i) (hb : Placed b j) (hended : ¬(i < a.length ∧ j < b.length)) :
    InRange (compareFinalAt behind a b i j).reads ↔ Covered a b (parts (a.drop i)) (parts (b.drop j)) := by
  have hnil : ∀ {s : Str} {i : Nat}, s.length ≤ i → parts (s.drop i) = [] := fun h => by
    rw [List.drop_eq_nil_of_le h, parts_nil]
  have hpos : ∀ {s : Str} {i : Nat}, i < s.length → 0 < (parts (s.drop i)).length := fun h => by
    rw [List.drop_eq_getElem_cons h, parts_cons]
    exact Nat.succ_pos _
  rw [compareFinalAt_inRange, Covered]
  by_cases hi : a.length ≤ i
  · by_cases hj : b.length ≤ j
    · simp [hnil hi, hnil hj, Differ, ha hi, hb hj]
    · have hlt := hpos (Nat.not_le.mp hj)
      rw [hnil hi, ha hi]
      simp [Differ, Nat.le_of_lt (Nat.not_le.mp hj), Nat.not_le.mpr hlt]
  · have hj : b.length ≤ j := Nat.not_lt.mp fun h => hended ⟨Nat.not_le.mp hi, h⟩
    have hlt := hpos (Nat.not_le.mp hi)
    rw [hnil hj, hb hj]
    simp [Differ, Nat.le_of_lt (Nat.not_le.mp hi), Nat.not_le.mpr hlt]

theorem covered_cons {p q : Part} {ps qs : List Part} :
    Covered a b (p :: ps) (q :: qs) ↔ p.compare q ≠ 0 ∨ Covered a b ps qs := by
  rw [Covered, Covered, Differ, List.length_cons, List.length_cons, Nat.add_le_add_iff_right,
    Nat.add_le_add_iff_right, or_assoc]

theorem reads_at (behind : Str → Nat → Char) (s : Str) (i : Nat) :
    Reads (nextPartAt behind s i).val (.ofVal (nextPartAt behind s i).val) := by
  rw [val_nextPartAt]
  exact reads_nextPart _

/-- The loop ends, and reads no character outside exactly when the comparison is covered. -/
theorem compareLoopAt_spec {turns : Nat} (hturns : a.length - i < turns) (ha : Placed a i) (hb : Placed b j) :
    ∃ v, compareLoopAt behind a b turns i j = some v ∧
      (InRange v.reads ↔ Covered a b (parts (a.drop i)) (parts (b.drop j))) := by
  induction turns generalizing i j with
  | zero => exact absurd hturns (Nat.not_lt_zero _)
  | succ turns ih =>
    rw [compareLoopAt]
    by_cases hboth : i < a.length ∧ j < b.length
    · obtain ⟨hi, hj⟩ := hboth
      rw [if_pos ⟨hi, hj⟩, parts_drop behind hi, parts_drop behind hj, covered_cons]
      have hreads : InRange ((nextPartAt behind a i).reads ++ (nextPartAt behind b j).reads) :=
        inRange_append.mpr ⟨nextPartAt_inRange (Nat.le_of_lt hi), nextPartAt_inRange (Nat.le_of_lt hj)⟩
      have hless := subLess_iff (reads_at behind a i) (reads_at behind b j)
      have hgreater := subGreater_iff (reads_at behind a i) (reads_at behind b j)
      dsimp only
      by_cases hl : subLess (nextPartAt behind a i).val (nextPartAt behind b j).val = true
      · rw [if_pos hl]
        exact ⟨_, rfl, iff_of_true hreads (.inl (by rw [hless.mp hl]; decide))⟩
      rw [if_neg hl]
      by_cases hg : subGreater (nextPartAt behind a i).val (nextPartAt behind b j).val = true
      · rw [if_pos hg]
        exact ⟨_, rfl, iff_of_true hreads (.inl (by rw [hgreater.mp hg]; decide))⟩
      rw [if_neg hg]
      have hzero : (Part.ofVal (nextPartAt behind a i).val).compare (.ofVal (nextPartAt behind b j).val) =
        0 := by
        rcases Part.compare_cases (.ofVal (nextPartAt behind a i).val)
          (.ofVal (nextPartAt behind b j).val) with h | h | h
        · exact absurd (hless.mpr h) hl
        · exact h
        · exact absurd (hgreater.mpr h) hg
      have hadvance := nextPartAt_advances behind hi
      obtain ⟨v, hv, hcovered⟩ :=
        ih (i := (nextPartAt behind a i).next) (j := (nextPartAt behind b j).next) (by omega)
        (placed_next behind hi) (placed_next behind hj)
      rw [hv, Option.map_some]
      refine ⟨_, rfl, ?_⟩
      rw [inRange_append, and_iff_right hreads, hcovered, hzero]
      simp
    · rw [if_neg hboth]
      exact ⟨_, rfl, covered_final ha hb hboth⟩

/-- `compare` ends for all strings, and reads no character outside exactly when it is covered. -/
theorem compareAt_spec (behind : Str → Nat → Char) (a b : Str) :
    ∃ v, compareAt behind a b = some v ∧ (InRange v.reads ↔ Covered a b (parts a) (parts b)) :=
  compareLoopAt_spec (by omega) (placed_zero a) (placed_zero b)

theorem compareFinalAt_sign (behind : Str → Nat → Char) (a b : Str) (i j : Nat) :
    (compareFinalAt behind a b i j).sign = compareFinal (a.drop i) (b.drop j) := by
  rw [compareFinalAt, compareFinal, val_nextPartAt, val_nextPartAt]

/-- The verdict does not depend on what was read outside. -/
theorem compareLoopAt_sign {turns fuel : Nat} (hturns : a.length - i < turns)
    (hfuel : a.length - i ≤ fuel) {v : Verdict}
    (hv : compareLoopAt behind a b turns i j = some v) : v.sign = compareLoop fuel (a.drop i) (b.drop j) := by
  have hnil : ∀ {s : Str} {i : Nat}, ¬i < s.length ↔ s.drop i = [] := by
    intro s i
    rw [List.drop_eq_nil_iff, Nat.not_lt]
  induction turns generalizing i j fuel v with
  | zero => exact absurd hturns (Nat.not_lt_zero _)
  | succ turns ih =>
    rw [compareLoopAt] at hv
    by_cases hboth : i < a.length ∧ j < b.length
    · obtain ⟨hi, hj⟩ := hboth
      obtain ⟨fuel, rfl⟩ : ∃ n, fuel = n + 1 := ⟨fuel - 1, by omega⟩
      have hne : ¬(a.drop i = [] ∨ b.drop j = []) := by
        rw [← hnil, ← hnil]
        omega
      have hadvance := nextPartAt_advances behind hi
      rw [if_pos ⟨hi, hj⟩] at hv
      dsimp only at hv
      rw [compareLoop, if_neg hne, ← val_nextPartAt behind, ← val_nextPartAt behind, ← drop_next behind,
        ← drop_next behind]
      split_ifs at hv ⊢ with hless hgreater
      · rw [← Option.some.inj hv]
      · rw [← Option.some.inj hv]
      · obtain ⟨v', hv', rfl⟩ := Option.map_eq_some_iff.mp hv
        show v'.sign = _
        exact ih (by omega) (by omega) hv'
    · rw [if_neg hboth] at hv
      have hended : a.drop i = [] ∨ b.drop j = [] := by
        rw [← hnil, ← hnil]
        omega
      rw [← Option.some.inj hv, compareFinalAt_sign]
      cases fuel with
      | zero => rfl
      | succ fuel => rw [compareLoop, if_pos hended]

theorem compareAt_sign {v : Verdict} (hv : compareAt behind a b = some v) : v.sign = compare a b :=
  compareLoopAt_sign (by omega) (by omega) hv

end Scanning

section Parsing

variable (behind : Str → Nat → Char)

/-- `find`, and `rfind` -/
def find (pat s : Str) (start : Nat) : Option Nat :=
  (List.range (s.length + 1)).find? fun i => decide (start ≤ i) && pat.isPrefixOf (s.drop i)

def rfind (pat s : Str) : Option Nat := (List.range (s.length + 1)).reverse.find? fun i =>
    pat.isPrefixOf (s.drop i)

structure ParseOptions where
  odd : Bool
  noPrefix : Bool
  beta : Bool
  nineties : Bool

/-- The suffix of the file and the text in front of it. -/
def splitSuffix (suffixes : List Str) (file : Str) : Str × Str :=
  (suffixes.findSome? fun test => (rfind test file).map fun pos => (test, file.take pos)).getD ([], file)

/-- `prefix` -/
def leading (opts : ParseOptions) (templ : Str) : Str :=
  if opts.noPrefix then []
  else ((rfind (extractFromFilename templ) templ).map fun idx => templ.take idx).getD templ

def isspace (c : Char) : Bool := c == ' ' || (9 ≤ c.toNat && c.toNat ≤ 13)

/-- What `s >> token` reads until the end; blanks at the end leave an empty token. -/
def pageTokens (page : Str) : List Str :=
  tokens isspace page ++ if page.getLast?.all isspace then [[]] else []

/-- `matched` -/
def matchedText (lead suffix token : Str) : Option Str :=
  (find lead token 0).bind fun idx =>
    let idx2 :=
      if suffix ≠ [] then find suffix token (idx + 1)
      -- without a blank it is the last character, which an empty token does not have
      else (find [' '] token (idx + 1)).or (if token = [] then none else some (token.length - 1))
    idx2.map fun idx2 => (token.drop idx).take (idx2 - idx)

/-- The version in a token. -/
def offered (lead suffix token : Str) : Option Str :=
  (matchedText lead suffix token).bind fun matched =>
    if extractFromFilename matched = [] then none else some (extractFromFilename matched)

def isBeta (v : Str) : Bool :=
  ["alpha", "beta", "pre", "rc"].any fun word => (find word.toList (v.map Char.toLower) 0).isSome

/-- Whether a version is passed over for its minor version or its patch level. -/
def passedOver (opts : ParseOptions) (minor patch : Str) : Bool :=
  (!opts.odd && patch != [] && intVal minor % 2 == 1) || (!opts.nineties && patch != [] && 90 ≤ intVal patch)

/-- The checks of a version, with the characters they read. -/
def checkVersion (opts : ParseOptions) (v : Str) : Bool × List (Str × Nat) :=
  if !opts.beta && isBeta v then (false, [])
  else
    let major := nextPartAt behind v 0
    if major.val = [] then (true, major.reads)
    else
      let minor := nextPartAt behind v major.next
      let patch := nextPartAt behind v minor.next
      (!passedOver opts minor.val patch.val, major.reads ++ minor.reads ++ patch.reads)

/-- The versions found so far, and what was read for them. -/
structure Found where
  versions : List Str
  reads : List (Str × Nat)

def addVersion (opts : ParseOptions) (found : Found) (v : Str) : Found :=
  if v ∈ found.versions then found
  else
    let check := checkVersion behind opts v
    ⟨if check.1 then found.versions ++ [v] else found.versions, found.reads ++ check.2⟩

/-- What `ParseList` finds, and the characters it reads; `pairs` are those that the sort of the
newer versions compares. -/
def parseList (pairs : List Str → List (Str × Str)) (suffixes : List Str) (opts : ParseOptions)
    (file page : Str) : Option Found := do
  let (suffix, templ) := splitSuffix suffixes file
  let version := extractFromFilename templ
  let found := ((pageTokens page).filterMap (offered (leading opts templ) suffix)).foldl
    (addVersion behind opts) ⟨[], []⟩
  let verdicts ← found.versions.mapM fun v => compareAt behind v version
  let newer := ((found.versions.zip verdicts).filter fun x => x.2.sign == 1).map Prod.fst
  let sorting ← (pairs newer).mapM fun pair => compareAt behind pair.1 pair.2
  pure ⟨newer, found.reads ++ verdicts.flatMap Verdict.reads ++ sorting.flatMap Verdict.reads⟩

variable {behind} {opts : ParseOptions} {v : Str} {found : Found} {offers : List Str}

/-- `checkVersion` on the characters alone. -/
def keeps (opts : ParseOptions) (v : Str) : Bool :=
  let minor := nextPart (nextPart v).2
  let patch := nextPart minor.2
  if !opts.beta && isBeta v then false else if (nextPart v).1 = [] then true
    else !passedOver opts minor.1 patch.1

theorem checkVersion_keeps (behind : Str → Nat → Char) (opts : ParseOptions) (v : Str) :
    (checkVersion behind opts v).1 = keeps opts v := by
  have hval := val_nextPartAt behind v
  have hdrop := drop_next behind v
  rw [checkVersion, keeps]
  by_cases hbeta : (!opts.beta && isBeta v) = true
  · rw [if_pos hbeta, if_pos hbeta]
  rw [if_neg hbeta, if_neg hbeta]
  dsimp only
  rw [hval 0, List.drop_zero]
  by_cases hempty : (nextPart v).1 = []
  · rw [if_pos hempty, if_pos hempty]
  · rw [if_neg hempty, if_neg hempty, hval, hval, hdrop, hdrop, hdrop, List.drop_zero]

/-- The version has a patch level, or ends with a separator behind the minor version. -/
def Deep (v : Str) : Prop := 2 < (parts v).length ∨ (parts v).length = 2 ∧ EndsOpen v

theorem length_parts_drop (behind : Str → Nat → Char) {i : Nat} (hi : i < v.length) :
    (parts (v.drop i)).length = (parts (v.drop (nextPartAt behind v i).next)).length + 1 := by
  rw [parts_drop behind hi, List.length_cons]

theorem length_parts_end {i : Nat} (hi : v.length ≤ i) : (parts (v.drop i)).length = 0 := by
  rw [List.drop_eq_nil_of_le hi, parts_nil, List.length_nil]

/-- At the terminator `next_part` steps over it. -/
theorem nextPartAt_end (behind : Str → Nat → Char) (v : Str) :
    v.length < (nextPartAt behind v v.length).next := by
  obtain ⟨-, -, ⟨-, hnext, -⟩ | ⟨c, rest, hdrop, -⟩⟩ := nextPartAt_stop behind (Nat.le_refl v.length)
  · rw [hnext]
    omega
  · have hlength := congrArg List.length hdrop
    rw [List.length_drop, List.length_cons] at hlength
    omega

/-- The three calls for a version stay in it when it is deep enough. -/
theorem three_calls (behind : Str → Nat → Char) (hne : v ≠ []) :
    InRange ((nextPartAt behind v 0).reads ++ (nextPartAt behind v (nextPartAt behind v 0).next).reads ++
      (nextPartAt behind v (nextPartAt behind v (nextPartAt behind v 0).next).next).reads) ↔ Deep v := by
  have hpos := List.length_pos_iff.mpr hne
  have hcount := length_parts_drop behind hpos
  rw [List.drop_zero] at hcount
  rw [inRange_append, inRange_append, nextPartAt_inRange_iff, nextPartAt_inRange_iff,
    nextPartAt_inRange_iff, Deep, hcount]
  have hend := nextPartAt_end behind v
  generalize (nextPartAt behind v 0).next = i
  rcases Nat.lt_trichotomy i v.length with hlt | heq | hgt
  · have hplaced := placed_next behind hlt
    rw [length_parts_drop behind hlt]
    generalize (nextPartAt behind v i).next = j at hplaced
    by_cases hj : j < v.length
    · rw [length_parts_drop behind hj]
      exact iff_of_true ⟨⟨Nat.zero_le _, Nat.le_of_lt hlt⟩, Nat.le_of_lt hj⟩ (.inl (by omega))
    · rw [length_parts_end (Nat.not_lt.mp hj), hplaced (Nat.not_lt.mp hj)]
      simp [Nat.le_of_lt hlt]
  · rw [length_parts_end (Nat.le_of_eq heq.symm), heq]
    refine iff_of_false (fun h => ?_) (by omega)
    exact absurd h.2 (Nat.not_le.mpr hend)
  · rw [length_parts_end (Nat.le_of_lt hgt)]
    exact iff_of_false (fun h => absurd h.1.2 (Nat.not_le.mpr hgt)) (by omega)

/-- What is offered starts with a digit. -/
theorem extractLoop_digit {version s : Str} {before : Char} (h : version.head?.all Char.isDigit = true) :
    (extractLoop version before s).head?.all Char.isDigit = true := by
  induction s generalizing version before with
  | nil => exact h
  | cons c s ih =>
    rw [extractLoop]
    split_ifs with hdigit hempty hsep
    · exact ih hdigit
    · exact hdigit
    · exact ih h
    · exact ih h

theorem offered_digit {lead suffix token : Str} (h : offered lead suffix token = some v) :
    ∃ d s, v = d :: s ∧ d.isDigit = true := by
  obtain ⟨matched, -, hv⟩ := Option.bind_eq_some_iff.mp h
  split at hv
  next => exact absurd hv (by simp)
  next hne =>
    have hhead : (extractFromFilename matched).head?.all Char.isDigit = true := by
      cases matched with
      | nil => rfl
      | cons c s => exact extractLoop_digit rfl
    obtain rfl := Option.some.inj hv
    obtain ⟨d, s, heq⟩ := List.exists_cons_of_ne_nil hne
    rw [heq] at hhead
    exact ⟨d, s, heq, hhead⟩

/-- The checks of a version read no character outside exactly when it is dismissed as a beta or deep
enough. -/
theorem checkVersion_inRange {d : Char} {s : Str} (hd : d.isDigit = true) :
    InRange (checkVersion behind opts (d :: s)).2 ↔
    ((!opts.beta && isBeta (d :: s)) = false → Deep (d :: s)) := by
  have hval : (nextPartAt behind (d :: s) 0).val ≠ [] := by
    rw [val_nextPartAt, List.drop_zero, nextPart, first, List.headD_cons, if_pos hd,
      List.takeWhile_cons_of_pos hd]
    exact List.cons_ne_nil _ _
  rw [checkVersion]
  by_cases hbeta : (!opts.beta && isBeta (d :: s)) = true
  · rw [if_pos hbeta, hbeta]
    exact iff_of_true (fun read hread => absurd hread List.not_mem_nil) (fun h => absurd h (by decide))
  · rw [if_neg hbeta]
    dsimp only
    rw [if_neg hval, three_calls behind (List.cons_ne_nil d s)]
    exact ⟨fun h _ => h, fun h => h (Bool.not_eq_true _ ▸ hbeta)⟩

def keep (opts : ParseOptions) (versions : List Str) (v : Str) : List Str :=
  if v ∈ versions then versions else if keeps opts v then versions ++ [v] else versions

/-- The versions that stay, each once. -/
def keptVersions (opts : ParseOptions) (offers : List Str) : List Str := offers.foldl (keep opts) []

theorem addVersion_versions (behind : Str → Nat → Char) (opts : ParseOptions) (offers : List Str)
    (found : Found) :
    (offers.foldl (addVersion behind opts) found).versions = offers.foldl (keep opts) found.versions := by
  induction offers generalizing found with
  | nil => rfl
  | cons v offers ih =>
    rw [List.foldl_cons, List.foldl_cons, ih, addVersion, keep]
    by_cases hv : v ∈ found.versions
    · rw [if_pos hv, if_pos hv]
    · rw [if_neg hv, if_neg hv]
      dsimp only
      rw [checkVersion_keeps]

theorem mem_keep {versions : List Str} {w : Str} :
    v ∈ keep opts versions w ↔ v ∈ versions ∨ v = w ∧ keeps opts v = true := by
  rw [keep]
  split_ifs with hw hkept
  · exact ⟨.inl, fun h => h.elim (fun h => h) fun h => h.1 ▸ hw⟩
  · rw [List.mem_append, List.mem_singleton]
    exact or_congr_right ⟨fun h => ⟨h, h ▸ hkept⟩, fun h => h.1⟩
  · exact ⟨.inl, fun h => h.elim (fun h => h) fun h => absurd (h.1 ▸ h.2) hkept⟩

theorem mem_foldl_keep {versions : List Str} :
    v ∈ offers.foldl (keep opts) versions ↔ v ∈ versions ∨ v ∈ offers ∧ keeps opts v = true := by
  induction offers generalizing versions with
  | nil => simp
  | cons w offers ih => rw [List.foldl_cons, ih, mem_keep, or_assoc, ← or_and_right, ← List.mem_cons]

theorem mem_keptVersions : v ∈ keptVersions opts offers ↔ v ∈ offers ∧ keeps opts v = true := by
  rw [keptVersions, mem_foldl_keep]
  simp

/-- A version that is found again has been checked before. -/
theorem addVersion_reads (behind : Str → Nat → Char) (opts : ParseOptions) (offers : List Str) {found : Found}
    (hchecked : ∀ v ∈ found.versions, InRange found.reads → InRange (checkVersion behind opts v).2) :
    InRange (offers.foldl (addVersion behind opts) found).reads ↔
      InRange found.reads ∧ ∀ v ∈ offers, InRange (checkVersion behind opts v).2 := by
  induction offers generalizing found with
  | nil => simp
  | cons w offers ih =>
    rw [List.foldl_cons, List.forall_mem_cons, addVersion]
    by_cases hw : w ∈ found.versions
    · rw [if_pos hw, ih hchecked]
      exact and_congr_right fun hfound => (and_iff_right (hchecked w hw hfound)).symm
    · rw [if_neg hw]
      dsimp only
      rw [ih, inRange_append, and_assoc]
      intro v hv hreads
      obtain ⟨hfound, hcheck⟩ := inRange_append.mp hreads
      split at hv
      next =>
        rcases List.mem_append.mp hv with hv | hv
        · exact hchecked v hv hfound
        · exact List.mem_singleton.mp hv ▸ hcheck
      next => exact hchecked v hv hfound

theorem exists_mapM {α β : Type} {f : α → Option β} {l : List α} (h : ∀ x ∈ l, ∃ y, f x = some y) :
    ∃ ys, l.mapM f = some ys ∧ List.Forall₂ (fun x y => f x = some y) l ys := by
  induction l with
  | nil => exact ⟨[], rfl, .nil⟩
  | cons x l ih =>
    obtain ⟨y, hy⟩ := h x List.mem_cons_self
    obtain ⟨ys, hys, hall⟩ := ih fun x hx => h x (List.mem_cons_of_mem _ hx)
    refine ⟨y :: ys, ?_, .cons hy hall⟩
    rw [List.mapM_cons, hy, hys]
    rfl

theorem inRange_flatMap {pairs : List (Str × Str)} {verdicts : List Verdict}
    (h : List.Forall₂ (fun pair v => compareAt behind pair.1 pair.2 = some v) pairs verdicts) :
    InRange (verdicts.flatMap Verdict.reads) ↔ ∀ pair ∈ pairs,
    Covered pair.1 pair.2 (parts pair.1) (parts pair.2) := by
  induction h with
  | nil => simp [InRange]
  | @cons pair verdict pairs verdicts hverdict hrest ih =>
    obtain ⟨v, hv, hreads⟩ := compareAt_spec behind pair.1 pair.2
    obtain rfl := Option.some.inj (hverdict.symm.trans hv)
    rw [List.flatMap_cons, inRange_append, List.forall_mem_cons, ih, hreads]

theorem newer_eq {versions : List Str} {own : Str} {verdicts : List Verdict}
    (h : List.Forall₂ (fun v verdict => compareAt behind v own = some verdict) versions verdicts) :
    ((versions.zip verdicts).filter fun x => x.2.sign == 1).map Prod.fst = versions.filter fun v =>
    compare v own == 1 := by
  induction h with
  | nil => rfl
  | @cons v verdict versions verdicts hverdict hrest ih =>
    rw [List.zip_cons_cons, List.filter_cons, List.filter_cons, ← compareAt_sign hverdict]
    dsimp only
    split
    · rw [List.map_cons, ih]
    · exact ih

/-- The versions that a page offers for a file. -/
def pageOffers (suffixes : List Str) (opts : ParseOptions) (file page : Str) : List Str :=
  (pageTokens page).filterMap (offered (leading opts (splitSuffix suffixes file).2)
    (splitSuffix suffixes file).1)

/-- The version of the file itself. -/
def ownVersion (suffixes : List Str) (file : Str) : Str := extractFromFilename (splitSuffix suffixes file).2

/-- Every version that is checked is deep enough, and every comparison is covered. -/
structure Sheltered (pairs : List Str → List (Str × Str)) (suffixes : List Str) (opts : ParseOptions)
    (file page : Str) : Prop where
  deep : ∀ v ∈ pageOffers suffixes opts file page, (!opts.beta && isBeta v) = false → Deep v
  own : ∀ v ∈ pageOffers suffixes opts file page, keeps opts v = true →
    Covered v (ownVersion suffixes file) (parts v) (parts (ownVersion suffixes file))
  sorted : ∀ pair ∈ pairs ((keptVersions opts (pageOffers suffixes opts file page)).filter fun v =>
    compare v (ownVersion suffixes file) == 1),
    Covered pair.1 pair.2 (parts pair.1) (parts pair.2)

theorem parseList_spec (behind : Str → Nat → Char) (pairs : List Str → List (Str × Str))
    (suffixes : List Str) (opts : ParseOptions)
    (file page : Str) : ∃ found, parseList behind pairs suffixes opts file page = some found ∧
      (InRange found.reads ↔ Sheltered pairs suffixes opts file page) := by
  have hreads := @addVersion_reads behind opts (pageOffers suffixes opts file page) ⟨[], []⟩
    fun v hv => absurd hv List.not_mem_nil
  have hversions := addVersion_versions behind opts (pageOffers suffixes opts file page) ⟨[], []⟩
  have hresult : parseList behind pairs suffixes opts file page = (do
      let found := (pageOffers suffixes opts file page).foldl (addVersion behind opts) ⟨[], []⟩
      let verdicts ← found.versions.mapM fun v => compareAt behind v (ownVersion suffixes file)
      let newer := ((found.versions.zip verdicts).filter fun x => x.2.sign == 1).map Prod.fst
      let sorting ← (pairs newer).mapM fun pair => compareAt behind pair.1 pair.2
      pure ⟨newer, found.reads ++ verdicts.flatMap Verdict.reads ++ sorting.flatMap Verdict.reads⟩) := rfl
  generalize (pageOffers suffixes opts file page).foldl (addVersion behind opts) ⟨[], []⟩ =
    found at hreads hversions hresult
  obtain ⟨verdicts, hverdicts, hall⟩ :=
    exists_mapM (f := fun v => compareAt behind v (ownVersion suffixes file)) (l := found.versions)
    fun v _ => (compareAt_spec behind v _).imp fun _ h => h.1
  obtain ⟨sorting, hsorting, hpairs⟩ :=
    exists_mapM (f := fun pair : Str × Str => compareAt behind pair.1 pair.2)
    (l := pairs (((found.versions.zip verdicts).filter fun x => x.2.sign == 1).map Prod.fst))
    fun pair _ => (compareAt_spec behind pair.1 pair.2).imp fun _ h => h.1
  refine ⟨⟨((found.versions.zip verdicts).filter fun x => x.2.sign == 1).map Prod.fst,
    found.reads ++ verdicts.flatMap Verdict.reads ++ sorting.flatMap Verdict.reads⟩, ?_, ?_⟩
  · rw [hresult]
    simp only [hverdicts, hsorting, Option.bind_eq_bind, Option.bind_some, Option.pure_def]
  · have hversions' : found.versions = keptVersions opts (pageOffers suffixes opts file page) := hversions
    have hown : InRange (verdicts.flatMap Verdict.reads) ↔ ∀ v ∈ pageOffers suffixes opts file page,
      keeps opts v = true →
        Covered v (ownVersion suffixes file) (parts v) (parts (ownVersion suffixes file)) := by
      have hmap : List.Forall₂ (fun (pair : Str × Str) verdict =>
        compareAt behind pair.1 pair.2 = some verdict)
          (found.versions.map fun v => (v, ownVersion suffixes file)) verdicts :=
            List.forall₂_map_left_iff.mpr hall
      rw [inRange_flatMap hmap, List.forall_mem_map, hversions']
      exact ⟨fun h v hv hkeeps => h v (mem_keptVersions.mpr ⟨hv, hkeeps⟩),
        fun h v hv => h v (mem_keptVersions.mp hv).1 (mem_keptVersions.mp hv).2⟩
    have hdeep : InRange found.reads ↔ ∀ v ∈ pageOffers suffixes opts file page,
      (!opts.beta && isBeta v) = false → Deep v := by
      rw [hreads]
      refine (and_iff_right fun read hread => absurd hread List.not_mem_nil).trans
        (forall₂_congr fun v hv => ?_)
      obtain ⟨token, -, htoken⟩ := List.mem_filterMap.mp hv
      obtain ⟨d, s, rfl, hd⟩ := offered_digit htoken
      exact checkVersion_inRange hd
    rw [newer_eq hall, hversions'] at hpairs
    rw [inRange_append, inRange_append, hdeep, hown, inRange_flatMap hpairs]
    exact ⟨fun ⟨⟨h, h'⟩, h''⟩ => ⟨h, h', h''⟩, fun h => ⟨⟨h.deep, h.own⟩, h.sorted⟩⟩

/-- The scan always gets on and ends, and stays in the strings exactly when the comparisons are
covered and the versions of the page deep enough. -/
theorem scanning_iff (behind : Str → Nat → Char) :
    (∀ s i, i < s.length → i < (nextPartAt behind s i).next) ∧
    (∀ a b, ∃ v, compareAt behind a b = some v ∧ (InRange v.reads ↔ Covered a b (parts a) (parts b))) ∧
    ∀ pairs suffixes opts file page, ∃ found, parseList behind pairs suffixes opts file page = some found ∧
      (InRange found.reads ↔ Sheltered pairs suffixes opts file page) :=
  ⟨fun _ _ => nextPartAt_advances behind, compareAt_spec behind, parseList_spec behind⟩

/-- Equal versions without a separator at their end are read behind the terminator. -/
theorem compareAt_outside : ¬∀ behind a b v, compareAt behind a b = some v → InRange v.reads := by
  intro h
  have hrange := h (fun _ _ => nul) "1".toList "1".toList _ rfl
  exact absurd (hrange ("1".toList, 2) (by decide)) (by decide)

end Parsing

end T2SDE.Version
