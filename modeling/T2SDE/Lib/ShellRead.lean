import Mathlib.Data.List.DropRight
import T2SDE.Lib.Text

namespace ShellRead

open Text

/-- A character of a line, and whether a backslash stands in front of it. -/
abbrev Item := Char × Bool

/-- What `read` makes of a line with its backslashes. -/
def items : Str → List Item
  | [] => []
  | [c] => if c = '\\' then [] else [(c, false)]
  | c :: d :: s => if c = '\\' then (d, true) :: items s else (c, false) :: items (d :: s)

/-- The line does not go on in the next one. -/
def whole : Str → Bool
  | [] => true
  | [c] => c != '\\'
  | c :: d :: s => if c = '\\' then whole s else whole (d :: s)

/-- The lines that `read` returns one after the other, with what is read so far of the first; it
fails where the text ends without a newline. -/
def readLines (line : List Item) : Str → List (List Item)
  | [] => []
  | [c] => if c = '\n' then [line] else []
  | c :: d :: s =>
    if c = '\n' then line :: readLines [] (d :: s)
    else if c = '\\' then if d = '\n' then readLines line s else readLines (line ++ [(d, true)]) s
    else readLines (line ++ [(c, false)]) (d :: s)

def isBlank (c : Char) : Bool := c == ' ' || c == '\t'

def isSep (i : Item) : Bool := isBlank i.1 && !i.2

/-- `read` with two variables: the first word, and the rest without the blanks around it. -/
def readFields (line : List Item) : Str × Str :=
  let line := line.dropWhile isSep
  ((line.takeWhile (!isSep ·)).map Prod.fst,
    (((line.dropWhile (!isSep ·)).dropWhile isSep).rdropWhile isSep).map Prod.fst)

/-- A backslash in front of each special character. -/
def escape (special : Char → Bool) (s : Str) : Str := s.flatMap fun c => if special c then ['\\', c] else [c]

section Lines

variable {c d : Char} {u s l : Str} {special : Char → Bool}

theorem items_cons (hc : c ≠ '\\') (s : Str) : items (c :: s) = (c, false) :: items s := by
  cases s with
  | nil => exact if_neg hc
  | cons d s => exact if_neg hc

theorem items_backslash (d : Char) (s : Str) : items ('\\' :: d :: s) = (d, true) :: items s := if_pos rfl

theorem whole_cons (hc : c ≠ '\\') (s : Str) : whole (c :: s) = whole s := by
  cases s with
  | nil => exact bne_iff_ne.mpr hc
  | cons d s => exact if_neg hc

theorem whole_backslash (d : Char) (s : Str) : whole ('\\' :: d :: s) = whole s := if_pos rfl

theorem items_append (hu : whole u = true) (s : Str) : items (u ++ s) = items u ++ items s := by
  induction u using items.induct with
  | case1 => rfl
  | case2 => cases hu
  | case3 c hc =>
    rw [List.singleton_append, items_cons hc, items_cons hc]
    rfl
  | case4 d u ih =>
    rw [whole_backslash] at hu
    rw [List.cons_append, List.cons_append, items_backslash, items_backslash, ih hu, List.cons_append]
  | case5 c d u hc ih =>
    rw [whole_cons hc] at hu
    rw [List.cons_append, items_cons hc, ih hu, items_cons hc, List.cons_append]

theorem whole_append (hu : whole u = true) (s : Str) : whole (u ++ s) = whole s := by
  induction u using items.induct with
  | case1 => rfl
  | case2 => cases hu
  | case3 c hc => exact whole_cons hc s
  | case4 d u ih =>
    rw [whole_backslash] at hu
    rw [List.cons_append, List.cons_append, whole_backslash, ih hu]
  | case5 c d u hc ih =>
    rw [whole_cons hc] at hu
    rw [List.cons_append, whole_cons hc, ih hu]

/-- A line without backslashes is read as it stands. -/
theorem items_plain (hu : '\\' ∉ u) : items u = u.map (·, false) ∧ whole u = true := by
  induction u with
  | nil => exact ⟨rfl, rfl⟩
  | cons c u ih =>
    rw [List.mem_cons, not_or] at hu
    rw [items_cons (Ne.symm hu.1), whole_cons (Ne.symm hu.1), (ih hu.2).1]
    exact ⟨rfl, (ih hu.2).2⟩

/-- What is escaped is read as it was. -/
theorem items_escape (hspecial : special '\\' = true) (s : Str) :
    items (escape special s) = s.map (fun c => (c, special c)) ∧ whole (escape special s) = true := by
  induction s with
  | nil => exact ⟨rfl, rfl⟩
  | cons c s ih =>
    rw [escape, List.flatMap_cons, ← escape]
    by_cases hc : special c = true
    · rw [if_pos hc, List.cons_append, List.singleton_append, items_backslash, whole_backslash, ih.1,
        List.map_cons, hc]
      exact ⟨rfl, ih.2⟩
    · have hne : c ≠ '\\' := by
        rintro rfl
        exact hc hspecial
      rw [Bool.not_eq_true] at hc
      rw [if_neg (by simp [hc]), List.singleton_append, items_cons hne, whole_cons hne, ih.1,
        List.map_cons, hc]
      exact ⟨rfl, ih.2⟩

/-- A line that does not go on in the next one is returned by itself. -/
theorem readLines_line (hl : '\n' ∉ l) (hwhole : whole l = true) (line : List Item) (s : Str) :
    readLines line (l ++ '\n' :: s) = (line ++ items l) :: readLines [] s := by
  have hnewline : ∀ line, readLines line ('\n' :: s) = line :: readLines [] s := by
    intro line
    cases s with
    | nil => rfl
    | cons d s => exact if_pos rfl
  induction l using items.induct generalizing line with
  | case1 => rw [List.nil_append, hnewline, items, List.append_nil]
  | case2 => cases hwhole
  | case3 c hc =>
    rw [List.mem_singleton] at hl
    rw [List.singleton_append, readLines, if_neg (Ne.symm hl), if_neg hc, hnewline, items_cons hc, items]
  | case4 d l ih =>
    rw [List.mem_cons, List.mem_cons, not_or, not_or] at hl
    rw [whole_backslash] at hwhole
    rw [List.cons_append, List.cons_append, readLines, if_neg (by decide), if_pos rfl,
      if_neg (Ne.symm hl.2.1),
      ih hl.2.2 hwhole, items_backslash, List.append_assoc, List.singleton_append]
  | case5 c d l hc ih =>
    rw [List.mem_cons, not_or] at hl
    rw [whole_cons hc] at hwhole
    have hrest := ih hl.2 hwhole (line ++ [(c, false)])
    rw [List.cons_append] at hrest
    rw [List.cons_append, List.cons_append, readLines, if_neg (Ne.symm hl.1), if_neg hc, hrest, items_cons hc,
      List.append_assoc, List.singleton_append]

/-- Without a newline nothing is returned. -/
theorem readLines_rest (hs : '\n' ∉ s) (line : List Item) : readLines line s = [] := by
  induction s using items.induct generalizing line with
  | case1 => rfl
  | case2 => rfl
  | case3 c hc =>
    rw [List.mem_singleton] at hs
    exact if_neg (Ne.symm hs)
  | case4 d s ih =>
    rw [List.mem_cons, List.mem_cons, not_or, not_or] at hs
    rw [readLines, if_neg (by decide), if_pos rfl, if_neg (Ne.symm hs.2.1)]
    exact ih hs.2.2 _
  | case5 c d s hc ih =>
    rw [List.mem_cons, not_or] at hs
    rw [readLines, if_neg (Ne.symm hs.1), if_neg hc]
    exact ih hs.2 _

/-- Nothing is read that does not stand there. -/
theorem mem_items {i : Item} (h : i ∈ items s) : i.1 ∈ s := by
  induction s using items.induct with
  | case1 => cases h
  | case2 =>
    rw [items, if_pos rfl] at h
    cases h
  | case3 c hc =>
    rw [items, if_neg hc] at h
    rw [List.mem_singleton.mp h]
    exact List.mem_singleton_self c
  | case4 d s ih =>
    rw [items_backslash] at h
    rcases List.mem_cons.mp h with rfl | h
    · exact List.mem_cons_of_mem _ List.mem_cons_self
    · exact List.mem_cons_of_mem _ (List.mem_cons_of_mem _ (ih h))
  | case5 c d s hc ih =>
    rw [items_cons hc] at h
    rcases List.mem_cons.mp h with rfl | h
    · exact List.mem_cons_self
    · exact List.mem_cons_of_mem _ (ih h)

/-- Lines without backslashes are read as they stand. -/
theorem readLines_lines {lines : List Str} (hline : ∀ l ∈ lines, '\n' ∉ l) (hplain : ∀ l ∈ lines, '\\' ∉ l) :
    readLines [] (lines.flatMap (· ++ ['\n'])) = lines.map fun l => l.map (·, false) := by
  induction lines with
  | nil => rfl
  | cons l lines ih =>
    obtain ⟨hitems, hwhole⟩ := items_plain (hplain l List.mem_cons_self)
    rw [List.flatMap_cons, List.append_assoc, List.singleton_append,
      readLines_line (hline l List.mem_cons_self) hwhole,
      ih (fun x hx => hline x (List.mem_cons_of_mem l hx)) (fun x hx => hplain x (List.mem_cons_of_mem l hx)),
      List.nil_append, hitems, List.map_cons]

end Lines

section Fields

variable {pre cmd rest line : List Item}

theorem readFields_command (hpre : ∀ i ∈ pre, isSep i = true) (hcmd : ∀ i ∈ cmd, isSep i = false)
    (hne : cmd ≠ [])
    (hrest : ∀ i, rest.head? = some i → isSep i = true) : readFields (pre ++ (cmd ++ rest)) =
      (cmd.map Prod.fst, ((rest.dropWhile isSep).rdropWhile isSep).map Prod.fst) := by
  have hdrop : (pre ++ (cmd ++ rest)).dropWhile isSep = cmd ++ rest := by
    obtain ⟨i, cmd, rfl⟩ := List.exists_cons_of_ne_nil hne
    rw [List.dropWhile_append_of_pos hpre, List.cons_append, List.dropWhile_cons_of_neg]
    simp [hcmd i List.mem_cons_self]
  have hword : ∀ i ∈ cmd, (!isSep i) = true := fun i hi => by rw [hcmd i hi]; rfl
  have hstop : rest.takeWhile (!isSep ·) = [] ∧ rest.dropWhile (!isSep ·) = rest := by
    cases rest with
    | nil => exact ⟨rfl, rfl⟩
    | cons i rest =>
      have hi : ¬(!isSep i) = true := by simp [hrest i rfl]
      exact ⟨List.takeWhile_cons_of_neg hi, List.dropWhile_cons_of_neg hi⟩
  rw [readFields, hdrop, List.takeWhile_append_of_pos hword, List.dropWhile_append_of_pos hword, hstop.1,
    hstop.2,
    List.append_nil]

theorem readFields_sep {i : Item} (hi : isSep i = true) (line : List Item) :
    readFields (i :: line) = readFields line := by
  rw [readFields, readFields, List.dropWhile_cons_of_pos hi]

theorem readFields_blank (h : ∀ i ∈ line, isSep i = true) : (readFields line).1 = [] := by
  have hdrop : line.dropWhile isSep = [] := by
    rw [List.dropWhile_eq_nil_iff]
    exact h
  rw [readFields, hdrop]
  rfl

theorem isSep_plain (c : Char) : isSep (c, false) = isBlank c := Bool.and_true _

end Fields

end ShellRead
