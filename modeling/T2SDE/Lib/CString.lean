import T2SDE.Lib.Text

namespace CString

open Text

/-- The character that ends a string in memory. -/
def nul : Char := Char.ofNat 0

def char (mem : Str) (p : Nat) : Char := mem.getD p nul

def strAt (mem : Str) (p : Nat) : Str := (mem.drop p).takeWhile (· != nul)

def strcpy (s : Str) : Str := s ++ [nul]

def scanTo (d : Char) (mem : Str) (p : Nat) : Nat :=
  p + ((mem.drop p).takeWhile fun c => c != nul && c != d).length

def skipOver (d : Char) (mem : Str) (p : Nat) : Nat := p + ((mem.drop p).takeWhile (· == d)).length

/-- What `strtok` returns and leaves: the token, the memory, and where the next call goes on. -/
structure Token where
  tok : Nat
  mem : Str
  save : Nat

/-- `strtok` with one delimiter. -/
def strtok (d : Char) (mem : Str) (save : Nat) : Option Token :=
  let tok := skipOver d mem save
  if char mem tok = nul then none
  else
    let stop := scanTo d mem tok
    if char mem stop = nul then some ⟨tok, mem, stop⟩
    else some ⟨tok, mem.set stop nul, stop + 1⟩

def atoi (s : Str) : Int :=
  let s := s.dropWhile fun c => c == ' ' || (9 ≤ c.toNat && c.toNat ≤ 13)
  let value (s : Str) : Int := (s.takeWhile Char.isDigit).foldl (fun n c => 10 * n + (c.toNat - 48)) 0
  match s with
  | '-' :: s => -value s
  | '+' :: s => value s
  | s => value s

section Memory

variable {d : Char} {s w seps : Str}

theorem takeWhile_stop {p : Char → Bool} {c : Char} (hw : ∀ x ∈ w, p x = true) (hc : p c = false) :
    (w ++ c :: s).takeWhile p = w := by
  rw [List.takeWhile_append_of_pos hw, List.takeWhile_cons_of_neg (by simp [hc]), List.append_nil]

theorem takeWhile_append_stop {p : Char → Bool} {c : Char} (hc : p c = false) :
    (w ++ c :: s).takeWhile p = w.takeWhile p := by
  induction w with
  | nil => rw [List.nil_append, List.takeWhile_cons_of_neg (by simp [hc]), List.takeWhile_nil]
  | cons x w ih =>
    rw [List.cons_append, List.takeWhile_cons, List.takeWhile_cons, ih]

theorem char_at (pre : Str) (c : Char) (post : Str) : char (pre ++ c :: post) pre.length = c := by
  simp [char]

theorem write_at (pre : Str) (c x : Char) (post : Str) :
    (pre ++ c :: post).set pre.length x = pre ++ x :: post := by
  rw [List.set_append_right _ _ (Nat.le_refl _), Nat.sub_self, List.set_cons_zero]

theorem strAt_of (pre post : Str) (hs : nul ∉ s) : strAt (pre ++ (s ++ nul :: post)) pre.length = s := by
  have hall : ∀ x ∈ s, (x != nul) = true := by
    intro x hx
    simpa using fun h : x = nul => hs (h ▸ hx)
  rw [strAt, List.drop_left, takeWhile_stop hall (by simp)]

theorem scanTo_of (pre post : Str) {c : Char} (hw : nul ∉ w) (hd : d ∉ w) (hc : c = nul ∨ c = d) :
    scanTo d (pre ++ (w ++ c :: post)) pre.length = pre.length + w.length := by
  have hall : ∀ x ∈ w, (x != nul && x != d) = true := by
    intro x hx
    have h1 : x ≠ nul := fun h => hw (h ▸ hx)
    have h2 : x ≠ d := fun h => hd (h ▸ hx)
    simp [h1, h2]
  have hstop : (c != nul && c != d) = false := by
    rcases hc with rfl | rfl <;> simp
  rw [scanTo, List.drop_left, takeWhile_stop hall hstop]

theorem skipOver_of (pre post : Str) {c : Char} (hs : ∀ x ∈ seps, (x == d) = true) (hc : c ≠ d) :
    skipOver d (pre ++ (seps ++ c :: post)) pre.length = pre.length + seps.length := by
  rw [skipOver, List.drop_left, takeWhile_stop hs (by simpa using hc)]

end Memory

section Strtok

variable {d : Char} {tok seps : Str}

theorem strtok_blank (hd : d ≠ nul) (hs : ∀ c ∈ seps, (c == d) = true) (pre : Str) :
    strtok d (pre ++ strcpy seps) pre.length = none := by
  have hskip := skipOver_of pre [] hs hd.symm
  have hchar : char (pre ++ (seps ++ [nul])) (pre.length + seps.length) = nul := by
    have := char_at (pre ++ seps) nul []
    simpa using this
  simp only [strtok, strcpy, hskip, hchar, if_true]

theorem strtok_start (hs : ∀ c ∈ seps, (c == d) = true) (hne : tok ≠ []) (htok : d ∉ tok)
    (hnul : nul ∉ tok) (pre post : Str) :
    skipOver d (pre ++ (seps ++ (tok ++ post))) pre.length = pre.length + seps.length ∧
      char (pre ++ (seps ++ (tok ++ post))) (pre.length + seps.length) ≠ nul := by
  obtain ⟨c, tok, rfl⟩ := List.exists_cons_of_ne_nil hne
  refine ⟨skipOver_of pre _ hs fun h => htok (by simp [h]), ?_⟩
  have := char_at (pre ++ seps) c (tok ++ post)
  simp only [List.append_assoc, List.length_append, List.cons_append] at this ⊢
  rw [this]
  exact fun h => hnul (by simp [h])

theorem strtok_last (hs : ∀ c ∈ seps, (c == d) = true) (hne : tok ≠ []) (htok : d ∉ tok)
    (hnul : nul ∉ tok) (pre : Str) :
    strtok d (pre ++ strcpy (seps ++ tok)) pre.length =
      some ⟨(pre ++ seps).length, pre ++ seps ++ (tok ++ [nul]), (pre ++ seps ++ tok).length⟩ := by
  obtain ⟨hskip, hchar⟩ := strtok_start hs hne htok hnul pre [nul]
  have hstop := scanTo_of (pre ++ seps) [] hnul htok (.inl rfl)
  have hend := char_at (pre ++ seps ++ tok) nul []
  simp only [List.append_assoc, List.length_append] at hskip hchar hstop hend
  simp only [strtok, strcpy, List.append_assoc, List.length_append, hskip, hchar, if_false, hstop]
  rw [if_pos (by simpa [Nat.add_assoc] using hend), Nat.add_assoc]

theorem strtok_next (hd : d ≠ nul) (hs : ∀ c ∈ seps, (c == d) = true) (hne : tok ≠ [])
    (htok : d ∉ tok) (hnul : nul ∉ tok) (pre rest : Str) :
    strtok d (pre ++ strcpy (seps ++ (tok ++ d :: rest))) pre.length =
      some ⟨(pre ++ seps).length, pre ++ seps ++ (tok ++ nul :: strcpy rest),
        (pre ++ seps ++ tok ++ [nul]).length⟩ := by
  obtain ⟨hskip, hchar⟩ := strtok_start hs hne htok hnul pre (d :: strcpy rest)
  have hstop := scanTo_of (pre ++ seps) (strcpy rest) hnul htok (.inr rfl)
  have hend := char_at (pre ++ seps ++ tok) d (strcpy rest)
  have hwrite := write_at (pre ++ seps ++ tok) d nul (strcpy rest)
  simp only [strcpy, List.append_assoc, List.length_append] at hskip hchar hstop hend hwrite
  simp only [strtok, strcpy, List.append_assoc, List.length_append, List.cons_append, hskip, hchar,
    if_false, hstop]
  rw [Nat.add_assoc, hend, if_neg hd, hwrite]
  simp [Nat.add_assoc]

end Strtok

end CString
