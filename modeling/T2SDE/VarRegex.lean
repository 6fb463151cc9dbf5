import Mathlib.Data.List.DropRight
import T2SDE.Lib.Awk
import T2SDE.VarEdit

namespace T2SDE

open Text

section Functions

/-- An argument of letters that `echo` takes for options. -/
def isEchoOption (s : Str) : Bool :=
  match s with
  | '-' :: letters => letters != [] && letters.all fun c => c == 'n' || c == 'e' || c == 'E'
  | _ => false

/-- `echo "$var"` -/
def echo (var : Str) : Str :=
  if isEchoOption var then (if 'n' ∈ var then [] else ['\n']) else var ++ ['\n']

/-- `split(line, a, delim)` -/
def splitAt (delim : Char) (line : Str) : List Str :=
  if delim = ' ' then Awk.split line else if line = [] then [] else line.splitOn delim

/-- The loop that prints the items; its index starts with one. -/
def printItems (delim : Char) : Nat → List Str → Str
  | _, [] => []
  | c1, x :: b => (if c1 > 0 then [delim] else []) ++ x ++ printItems delim (c1 + 1) b

/-- What the awk program of both functions makes of a variable, with what it does to the items of a line. -/
def editItems (delim : Char) (edit : List Str → List Str) (var : Str) : Str :=
  ((fileLines (echo var)).flatMap fun line => printItems delim 1 (edit (splitAt delim line))).rdropWhile
    (· == '\n')

/-- `var_remove_regex`, where `hit` says which items match the regex from end to end. -/
def varRemoveRegex (delim : Delim) (hit : Str → Bool) (var : Str) : Str :=
  editItems delim.char (fun a => a.filter fun x => !hit x) var

/-- The loop that inserts the value; its flag says that this is still to be done. -/
def insertLoop (value : Str) (hit : Str → Bool) : Bool → List Str → List Str
  | d, [] => if d then [value] else []
  | d, x :: a => if d && hit x then value :: x :: insertLoop value hit false a
  else x :: insertLoop value hit d a

def varInsertBeforeRegex (delim : Delim) (value : Str) (hit : Str → Bool) (var : Str) : Str :=
  editItems delim.char (insertLoop value hit true) var

end Functions

section Lemmas

variable {d : Char} {x value line v : Str} {items l : List Str} {hit : Str → Bool}

/-- The characters that mean something to the shell. -/
def shellSpecial : Str := " \t\n|&;()<>$\\\"'*?[]#~=%!{}".toList ++ [Char.ofNat 96]

def PlainText (x : Str) : Prop := ∀ c ∈ x, c ∉ shellSpecial

/-- The items with the value in front of the first that matches, or behind them all. -/
def insertBefore (value : Str) (hit : Str → Bool) (items : List Str) : List Str :=
  items.takeWhile (fun x => !hit x) ++ value :: items.dropWhile fun x => !hit x

theorem insertLoop_done (items : List Str) : insertLoop value hit false items = items := by
  induction items with
  | nil => rfl
  | cons x items ih => rw [insertLoop, ih]; rfl

theorem insertLoop_eq (items : List Str) :
    insertLoop value hit true items = insertBefore value hit items := by
  induction items with
  | nil => rfl
  | cons x items ih =>
    rw [insertLoop, insertLoop_done, ih]
    cases hx : hit x <;> simp [insertBefore, hx]

/-- Every item is printed with a delimiter in front of it. -/
theorem printItems_eq (d : Char) (c1 : Nat) (l : List Str) :
    printItems d (c1 + 1) l = l.flatMap (d :: ·) := by
  induction l generalizing c1 with
  | nil => rfl
  | cons x l ih => rw [printItems, if_pos (Nat.succ_pos c1), ih]; rfl

theorem cons_joined (d : Char) (hne : l ≠ []) : d :: joined d l = l.flatMap (d :: ·) := by
  obtain ⟨x, l, rfl⟩ := List.exists_cons_of_ne_nil hne
  clear hne
  induction l generalizing x with
  | nil => simp [joined_singleton]
  | cons y l ih => rw [joined_cons_cons, ih, List.flatMap_cons]; rfl

theorem joined_eq (d : Char) (x : Str) (l : List Str) : joined d (x :: l) = x ++ l.flatMap (d :: ·) := by
  cases l with
  | nil => rw [joined_singleton, List.flatMap_nil, List.append_nil]
  | cons y l => rw [joined_cons_cons, cons_joined d (List.cons_ne_nil y l)]

theorem splitAt_joined (hitems : ∀ y ∈ items, IsItem d y ∧ PlainText y) :
    splitAt d (joined d items) = items := by
  by_cases hd : d = ' '
  · rw [splitAt, if_pos hd, Awk.split, hd, joined]
    refine tokens_intercalate rfl fun y hy => ⟨(hitems y hy).1.1, fun c hc => ?_⟩
    have hplain := (hitems y hy).2 c hc
    by_contra hblank
    simp only [Bool.not_eq_false, Awk.blank, Bool.or_eq_true, beq_iff_eq] at hblank
    rcases hblank with (rfl | rfl) | rfl <;> exact hplain (by decide)
  · rw [splitAt, if_neg hd]
    by_cases hne : items = []
    · subst hne
      rfl
    · rw [if_neg (joined_ne_nil (fun y hy => (hitems y hy).1) hne)]
      exact List.splitOn_intercalate d (fun y hy => (hitems y hy).1.2) hne

theorem newline_joined (hd : d ≠ '\n') (hitems : ∀ y ∈ items, PlainText y) : '\n' ∉ joined d items := by
  induction items with
  | nil => simp [joined, List.intercalate]
  | cons x l ih =>
    have hx : '\n' ∉ x := fun h => hitems x List.mem_cons_self _ h (by decide)
    cases l with
    | nil => rwa [joined_singleton]
    | cons y l =>
      have hrest := ih fun z hz => hitems z (List.mem_cons_of_mem x hz)
      rw [joined_cons_cons, List.mem_append, List.mem_cons, not_or, not_or]
      exact ⟨hx, hd.symm, hrest⟩

theorem newline_printed (hd : d ≠ '\n') (hitems : ∀ y ∈ items, PlainText y) :
    '\n' ∉ items.flatMap (d :: ·) := by
  intro h
  obtain ⟨y, hy, hmem⟩ := List.mem_flatMap.mp h
  rcases List.mem_cons.mp hmem with heq | hmem
  · exact hd heq.symm
  · exact hitems y hy _ hmem (by decide)

theorem rdropWhile_newline (h : '\n' ∉ v) : v.rdropWhile (· == '\n') = v := by
  rcases List.eq_nil_or_concat' v with rfl | ⟨u, c, rfl⟩
  · rfl
  · have hc : c ≠ '\n' := fun heq => h (by simp [heq])
    exact List.rdropWhile_concat_neg _ _ _ (by simpa using hc)

/-- The output, unless `echo` takes the variable for an option. -/
theorem editItems_joined {edit : List Str → List Str} (hd : d ≠ '\n')
    (hitems : ∀ y ∈ items, IsItem d y ∧ PlainText y) (hedit : ∀ y ∈ edit items, PlainText y)
    (hecho : isEchoOption (joined d items) = false) :
    editItems d edit (joined d items) = (edit items).flatMap (d :: ·) := by
  have hlines : fileLines (echo (joined d items)) = [joined d items] := by
    rw [echo, if_neg (by rw [hecho]; decide), fileLines_line (newline_joined hd fun y hy => (hitems y hy).2)]
    rfl
  rw [editItems, hlines, List.flatMap_singleton, splitAt_joined hitems, printItems_eq]
  exact rdropWhile_newline (newline_printed hd hedit)

/-- An option leaves no line, or an empty one. -/
theorem editItems_option {edit : List Str → List Str} (hd : d ≠ '\n') (hedit : ∀ y ∈ edit [], PlainText y)
    (hecho : isEchoOption v = true) : editItems d edit v = [] ∨
    editItems d edit v = (edit []).flatMap (d :: ·) := by
  rw [editItems, echo, if_pos hecho]
  by_cases hn : 'n' ∈ v
  · rw [if_pos hn]
    exact .inl rfl
  · have hlines : fileLines ['\n'] = [[]] := by decide
    have hsplit : splitAt d (joined d []) = [] := splitAt_joined (by simp)
    rw [if_neg hn, hlines, List.flatMap_singleton, show splitAt d [] = [] from hsplit, printItems_eq]
    exact .inr (rdropWhile_newline (newline_printed hd hedit))

end Lemmas

section Main

variable {items : List Str}

theorem joined_ne_printed (d : Char) (l : List Str) : l.flatMap (d :: ·) = joined d l ↔ l = [] := by
  constructor
  · intro h
    by_contra hne
    rw [← cons_joined d hne] at h
    exact absurd (congrArg List.length h) (by simp)
  · rintro rfl
    rfl

theorem joined_eq_nil {d : Char} (hitems : ∀ y ∈ items, IsItem d y) : joined d items = [] ↔ items = [] := by
  constructor
  · intro h
    by_contra hne
    exact joined_ne_nil hitems hne h
  · rintro rfl
    rfl

theorem length_option {s : Str} (h : isEchoOption s = true) : 1 < s.length := by
  unfold isEchoOption at h
  split at h
  next letters =>
    rw [Bool.and_eq_true] at h
    have hne : letters ≠ [] := by simpa using h.1
    have hpos := List.length_pos_iff.mpr hne
    simp only [List.length_cons]
    omega
  next => cases h

/-- The value and its delimiter are all that an insertion adds. -/
theorem length_insertBefore (d : Char) (value : Str) (hit : Str → Bool) (items : List Str) :
    ((insertBefore value hit items).flatMap (d :: ·)).length =
    (items.flatMap (d :: ·)).length + (value.length + 1) := by
  conv => rhs; rw [← List.takeWhile_append_dropWhile (p := fun x => !hit x) (l := items)]
  rw [insertBefore, List.flatMap_append, List.flatMap_append, List.flatMap_cons]
  simp only [List.length_append, List.length_cons]
  omega

theorem plain_insertBefore {value : Str} {hit : Str → Bool} (hvalue : PlainText value)
    (hitems : ∀ y ∈ items, PlainText y) : ∀ y ∈ insertBefore value hit items, PlainText y := by
  intro y hy
  rcases List.mem_append.mp hy with hy | hy
  · exact hitems y ((List.takeWhile_prefix _).subset hy)
  · rcases List.mem_cons.mp hy with rfl | hy
    · exact hvalue
    · exact hitems y ((List.dropWhile_suffix _).subset hy)

/-- `var_remove_regex` leaves the join of the rest just if there is no rest, and
`var_insert_before_regex` never leaves the join. -/
theorem regexEdits_iff (d : Delim) (items : List Str) (value : Str) (hit : Str → Bool)
    (hd : d.char ≠ '\'' ∧ d.char ≠ '\n') (hitems : ∀ y ∈ items, IsItem d.char y ∧ PlainText y)
    (hvalue : PlainText value) :
    (varRemoveRegex d hit (joined d.char items) = joined d.char (items.filter fun x => !hit x) ↔
      ∀ y ∈ items, hit y = true) ∧
    varInsertBeforeRegex d value hit (joined d.char items) ≠
    joined d.char (insertBefore value hit items) := by
  have hplain : ∀ y ∈ items, PlainText y := fun y hy => (hitems y hy).2
  have hinsert : insertLoop value hit true = insertBefore value hit := funext insertLoop_eq
  have hadded := length_insertBefore d.char value hit items
  have hwhole : insertBefore value hit items ≠ [] := by simp [insertBefore]
  constructor
  · have hrest : (items.filter fun x => !hit x) = [] ↔ ∀ y ∈ items, hit y = true := by
      simp [List.filter_eq_nil_iff]
    rw [← hrest, varRemoveRegex]
    cases hecho : isEchoOption (joined d.char items) with
    | false =>
      rw [editItems_joined hd.2 hitems (fun y hy => hplain y (List.mem_filter.mp hy).1) hecho]
      exact joined_ne_printed d.char _
    | true =>
      have hnone : editItems d.char (fun a => a.filter fun x => !hit x) (joined d.char items) = [] := by
        have hempty : ∀ y ∈ ([] : List Str).filter fun x => !hit x, PlainText y := by simp
        rcases editItems_option hd.2 hempty hecho with h | h
        · exact h
        · exact h
      rw [hnone, eq_comm]
      exact joined_eq_nil fun y hy => (hitems y (List.mem_filter.mp hy).1).1
  · rw [varInsertBeforeRegex, hinsert]
    cases hecho : isEchoOption (joined d.char items) with
    | false =>
      rw [editItems_joined hd.2 hitems (plain_insertBefore hvalue hplain) hecho]
      exact fun h => hwhole ((joined_ne_printed d.char _).mp h)
    | true =>
      have hlong := length_option hecho
      have hne : items ≠ [] := by
        rintro rfl
        exact absurd hlong (by simp [joined, List.intercalate])
      have hprinted := congrArg List.length (cons_joined d.char hwhole)
      have hvar := congrArg List.length (cons_joined d.char hne)
      simp only [List.length_cons] at hprinted hvar
      intro heq
      have hlen := congrArg List.length heq
      rcases editItems_option hd.2 (plain_insertBefore hvalue (by simp)) hecho with h | h
      · rw [h, List.length_nil] at hlen
        omega
      · rw [h, length_insertBefore, List.flatMap_nil, List.length_nil] at hlen
        omega

theorem plainText_of_all {x : Str} (h : (x.all fun c => !shellSpecial.contains c) = true) : PlainText x := by
  intro c hc
  simpa using List.all_eq_true.mp h c hc

theorem sample_items : ∀ y ∈ ["a".toList, "b".toList], IsItem colon.char y ∧ PlainText y := by
  intro y hy
  rcases List.mem_pair.mp hy with rfl | rfl
  · exact ⟨⟨by decide, by decide⟩, plainText_of_all (by decide)⟩
  · exact ⟨⟨by decide, by decide⟩, plainText_of_all (by decide)⟩

theorem regexEdits_iff_sample :
    (varRemoveRegex colon (· == "a".toList) (joined ':' ["a".toList, "b".toList]) =
        joined ':' (["a".toList, "b".toList].filter fun x => !(x == "a".toList)) ↔
      ∀ y ∈ ["a".toList, "b".toList], (y == "a".toList) = true) ∧
    varInsertBeforeRegex colon "c".toList (· == "a".toList) (joined ':' ["a".toList, "b".toList]) ≠
      joined ':' (insertBefore "c".toList (· == "a".toList) ["a".toList, "b".toList]) :=
  regexEdits_iff colon _ "c".toList (· == "a".toList) (by decide) sample_items (plainText_of_all (by decide))

/-- What is left starts with a delimiter. -/
theorem regexEdits_delimiter : ¬∀ (d : Delim) (items : List Str) (value : Str) (hit : Str → Bool),
    d.char ≠ '\'' ∧ d.char ≠ '\n' → (∀ y ∈ items, IsItem d.char y ∧ PlainText y) → PlainText value →
    varRemoveRegex d hit (joined d.char items) = joined d.char (items.filter fun x => !hit x) ∧
      varInsertBeforeRegex d value hit (joined d.char items) =
      joined d.char (insertBefore value hit items) := by
  intro h
  have heq := (h colon ["a".toList, "b".toList] [] (· == "a".toList) (by decide) sample_items
    (by simp [PlainText])).1
  exact absurd heq (by decide)

end Main

end T2SDE
