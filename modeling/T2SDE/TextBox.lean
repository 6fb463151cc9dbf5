import T2SDE.Inputbox
import T2SDE.Lib.CString
import T2SDE.Lib.FileWindow
import T2SDE.Lib.Places
import T2SDE.Lib.ScrolledRows

namespace T2SDE.TextBox

open Text CString FileWindow Config

section Program

def bufSize : Nat := 10 * 1024

/-- What `dialog_textbox` keeps in its variables, with the rows of its window. -/
structure Pager where
  window : Window Char
  beginReached : Bool
  endReached : Bool
  pageLength : Nat
  hscroll : Nat
  rows : List Str

variable (file : Str) (height width : Nat)

/-- The loop of `get_line`, with the line so far; the flag is for the end of the file. -/
def getLineLoop : Nat → Str → Window Char → Option (Str × Window Char × Bool)
  | 0, _, _ => none
  | fuel + 1, line, w =>
    let c := w.buf.getD w.page nul
    if c = '\n' then some (line, { w with page := w.page + 1 }, false)
    else if c = nul then
      if w.fpos < file.length then getLineLoop fuel line (load file bufSize w.fpos 0)
      else some (line, w, true)
    else getLineLoop fuel (if line.length < maxLen then line ++ [c] else line) { w with page := w.page + 1 }

def getLine (s : Pager) : Option (Str × Pager) :=
  (getLineLoop file (2 * file.length + 2) [] s.window).map fun r =>
    (r.1, { s with window := r.2.1, endReached := r.2.2 })

/-- What of a line is shown in a row. -/
def shown (hscroll : Nat) (line : Str) : Str :=
  let line := line.drop (min line.length hscroll)
  line.take (min line.length (width - 2))

def printLine (row : Nat) (s : Pager) : Option Pager :=
  (getLine file s).map fun r => { r.2 with rows := r.2.rows.set row (shown width r.2.hscroll r.1) }

/-- A turn of the loop of `print_page`, with its flag. -/
def pageTurn (line : Nat → Pager → Option Pager) (s : Pager × Bool) (i : Nat) : Option (Pager × Bool) :=
  (line i s.1).map fun t =>
    ({ t with pageLength := if s.2 then t.pageLength else t.pageLength + 1 }, s.2 || t.endReached)

def pageLoop (line : Nat → Pager → Option Pager) (s : Pager) : Option Pager :=
  ((List.range height).foldlM (pageTurn line) ({ s with pageLength := 0 }, false)).map Prod.fst

def printPage (s : Pager) : Option Pager := pageLoop height (printLine file width) s

/-- An index at the start of the window is moved into it, by a read of the file from further in front; none
is the start of the file. -/
def retreat (w : Window Char) : Option (Window Char) :=
  if w.page = 0 then
    if w.buf.length < w.fpos then
      if w.fpos < bufSize / 2 + w.buf.length then some (load file bufSize 0 (w.fpos - w.buf.length))
      else some (load file bufSize (w.fpos - (bufSize / 2 + w.buf.length)) (bufSize / 2))
    else none
  else some w

/-- Back to the end of the line in front; the flag is for the start of the file. -/
def backLine : Nat → Window Char → Option (Window Char × Bool)
  | 0, _ => none
  | fuel + 1, w =>
    match retreat file w with
    | none => some (w, true)
    | some w =>
      if w.buf.getD (w.page - 1) nul = '\n' then some ({ w with page := w.page - 1 }, false)
      else backLine fuel { w with page := w.page - 1 }

/-- The loop of `back_lines`. -/
def backLoop : Nat → Window Char → Option (Window Char × Bool)
  | 0, w => some ({ w with page := w.page + 1 }, false)
  | n + 1, w =>
    (backLine file (file.length + 1) w).bind fun r => if r.2 then some r else backLoop n r.1

/-- None is an exit with an error. -/
def backLines (n : Nat) (s : Pager) : Option Pager :=
  let finish (w : Window Char) : Option Pager :=
    (backLoop file n w).map fun r => { s with window := r.1, beginReached := r.2 }
  if s.endReached then finish s.window
  else
    match retreat file s.window with
    | none => some { s with beginReached := true }
    | some w =>
      if w.buf.getD (w.page - 1) nul = '\n' then finish { w with page := w.page - 1 }
      else none

inductive Key
  | char (c : Char)
  | home
  | end
  | up
  | down
  | left
  | right
  | ppage
  | npage
  | other

inductive Command
  | exit
  | first
  | last
  | previousLine
  | previousPage
  | nextLine
  | nextPage
  | lineStart
  | scrollLeft
  | scrollRight
  | escape
  | none

/-- The cases of the switch, and the keys that end the loop. -/
def Key.command : Key → Command
  | home => .first
  | Key.end => .last
  | up => .previousLine
  | down => .nextLine
  | left => .scrollLeft
  | right => .scrollRight
  | ppage => .previousPage
  | npage => .nextPage
  | char c =>
    if c ∈ ['E', 'e', 'X', 'x'] then .exit
    else if c = 'g' then .first
    else if c = 'G' then .last
    else if c ∈ ['K', 'k'] then .previousLine
    else if c ∈ ['B', 'b'] then .previousPage
    else if c ∈ ['J', 'j'] then .nextLine
    else if c = ' ' then .nextPage
    else if c = '0' then .lineStart
    else if c ∈ ['H', 'h'] then .scrollLeft
    else if c ∈ ['L', 'l'] then .scrollRight
    else if c ∈ ['\x1b', '\n'] then .escape
    else .none
  | other => .none

def first (s : Pager) : Option Pager :=
  if s.beginReached then some s
  else
    let window := if s.window.buf.length < s.window.fpos then load file bufSize 0 0
      else { s.window with page := 0 }
    printPage file height width { s with beginReached := true, window }

def last (s : Pager) : Option Pager :=
  let finish (w : Window Char) : Option Pager :=
    (backLines file height { s with endReached := true, window := { w with page := w.buf.length } }).bind
      (printPage file height width)
  if s.window.fpos < file.length then
    if file.length < bufSize then none else finish (load file bufSize (file.length - bufSize) 0)
  else finish s.window

/-- The rows are moved down, and the first line is printed; the others are just read. -/
def previousLine (s : Pager) : Option Pager :=
  if s.beginReached then some s
  else
    (backLines file (s.pageLength + 1) s).bind fun s =>
      pageLoop height (fun i s => if i = 0 then printLine file width 0 s else (getLine file s).map Prod.snd)
        { s with rows := ([] :: s.rows).dropLast }

def previousPage (s : Pager) : Option Pager :=
  if s.beginReached then some s
  else (backLines file (s.pageLength + height) s).bind (printPage file height width)

/-- The rows are moved up, and the last line is printed. -/
def nextLine (s : Pager) : Option Pager :=
  if s.endReached then some s
  else printLine file width (height - 1) { s with beginReached := false, rows := s.rows.tail ++ [[]] }

def nextPage (s : Pager) : Option Pager :=
  if s.endReached then some s else printPage file height width { s with beginReached := false }

/-- The page is printed again with another column first. -/
def reprint (hscroll : Nat) (s : Pager) : Option Pager :=
  (backLines file s.pageLength { s with hscroll }).bind (printPage file height width)

def Pager.step (s : Pager) : Command → Option Pager
  | .first => first file height width s
  | .last => last file height width s
  | .previousLine => previousLine file height width s
  | .previousPage => previousPage file height width s
  | .nextLine => nextLine file height width s
  | .nextPage => nextPage file height width s
  | .lineStart => if s.hscroll = 0 then some s else reprint file height width 0 s
  | .scrollLeft => if s.hscroll = 0 then some s else reprint file height width (s.hscroll - 1) s
  | .scrollRight => if maxLen ≤ s.hscroll then some s else reprint file height width (s.hscroll + 1) s
  | .exit | .escape | .none => some s

/-- The dialog's state and what it has returned, behind some keys. -/
def Pager.run : List Key → Pager → Option (Pager × Option Int)
  | [], s => some (s, none)
  | key :: keys, s =>
    match key.command with
    | .exit => some (s, some 0)
    | .escape => some (s, some (-1))
    | command => (s.step file height width command).bind (run keys)

/-- The dialog when it waits for the first key. -/
def opened : Option Pager :=
  printPage file height width
    { window := load file bufSize 0 0, beginReached := true, endReached := false, pageLength := 0,
      hscroll := 0,
      rows := List.replicate height [] }

end Program

section Purpose

/-- What a pager shows: from which line and which column on. -/
structure View where
  top : Nat
  hscroll : Nat

/-- The lines of a file; the last one is behind the last newline. -/
def lines (file : Str) : List Str := file.splitOn '\n'

variable (count height : Nat)

/-- A pager over so many lines, with a window of so many rows. -/
def View.step (v : View) : Command → View
  | .first => { v with top := 0 }
  | .last => { v with top := count - height }
  | .previousLine => { v with top := v.top - 1 }
  | .previousPage => { v with top := v.top - height }
  | .nextLine => if v.top + height < count then { v with top := v.top + 1 } else v
  | .nextPage => if v.top + height < count then { v with top := v.top + height } else v
  | .lineStart => { v with hscroll := 0 }
  | .scrollLeft => { v with hscroll := v.hscroll - 1 }
  | .scrollRight => if maxLen ≤ v.hscroll then v else { v with hscroll := v.hscroll + 1 }
  | .exit | .escape | .none => v

def View.run : List Key → View → View × Option Int
  | [], v => (v, none)
  | key :: keys, v =>
    match key.command with
    | .exit => (v, some 0)
    | .escape => (v, some (-1))
    | command => run keys (v.step count height command)

/-- The rows of a view: the lines from the first one on, cut to 2048 characters, from the column on. -/
def View.rows (file : Str) (height width : Nat) (v : View) : List Str :=
  (List.range height).map fun i => shown width v.hscroll (((lines file).getD (v.top + i) []).take maxLen)

end Purpose

section Reading

variable {file : Str} {fuel p : Nat} {v back line : Str} {w : Window Char}

theorem getLineLoop_spec (hnul : nul ∉ file) (hat : At file bufSize w p) (hrest : file.drop p = v ++ back)
    (hv : '\n' ∉ v) (hback : ∀ c ∈ back.head?, c = '\n') (hline : line.length ≤ maxLen)
    (hfuel : 2 * (file.length - p) + (if w.page = w.buf.length then 2 else 1) ≤ fuel) :
    ∃ w', getLineLoop file fuel line w = some ((line ++ v).take maxLen, w', back.isEmpty) ∧
      At file bufSize w' (p + v.length + (back.take 1).length) := by
  induction fuel generalizing w p v line with
  | zero =>
    split at hfuel <;> omega
  | succ fuel ih =>
    have hle := hat.le
    have hwithin := hat.within
    have hfull : (line ++ []).take maxLen = line := by rw [List.append_nil, List.take_of_length_le hline]
    rw [getLineLoop]
    by_cases hpage : w.page = w.buf.length
    · -- the window is read up: its end reads as NUL
      rw [if_pos hpage] at hfuel
      have hchar : w.buf.getD w.page nul = nul := by
        rw [List.getD_eq_getElem?_getD, List.getElem?_eq_none (by omega), Option.getD_none]
      rw [hchar, if_neg (by decide), if_pos rfl, hat.fpos_eq hpage]
      by_cases hmore : p < file.length
      · rw [if_pos hmore]
        have hload : At file bufSize (load file bufSize p 0) p := at_load hle (Nat.zero_le _) hle
        have hsome : 0 < (load file bufSize p 0).buf.length := load_nonempty (by decide) hmore
        refine ih hload hrest hv hline ?_
        rw [if_neg (show (load file bufSize p 0).page ≠ _ from Nat.ne_of_lt hsome)]
        omega
      · rw [if_neg hmore]
        rw [List.drop_eq_nil_of_le (by omega)] at hrest
        obtain ⟨rfl, rfl⟩ := List.append_eq_nil_iff.mp hrest.symm
        exact ⟨w, by rw [hfull]; rfl, hat⟩
    · rw [if_neg hpage] at hfuel
      have hlt : w.page < w.buf.length := by omega
      have hget := hat.get hlt
      have hnext := hat.next hlt
      have hfile : p < file.length := by
        by_contra hend
        rw [List.getElem?_eq_none (by omega : file.length ≤ p)] at hget
        rw [List.getElem?_eq_getElem hlt] at hget
        exact Option.some_ne_none _ hget
      have hchar : w.buf.getD w.page nul = file[p] := by
        rw [List.getD_eq_getElem?_getD, hget, List.getElem?_eq_getElem hfile, Option.getD_some]
      rw [List.drop_eq_getElem_cons hfile] at hrest
      rw [hchar]
      cases v with
      | nil =>
        rw [List.nil_append] at hrest
        subst hrest
        have hnewline : file[p] = '\n' := hback _ rfl
        rw [if_pos hnewline]
        exact ⟨_, by rw [hfull]; rfl, hnext⟩
      | cons c v =>
        obtain ⟨hc, hrest⟩ := List.cons.inj hrest
        rw [List.mem_cons, not_or] at hv
        have hcnul : c ≠ nul := fun h => hnul (h ▸ hc ▸ List.getElem_mem hfile)
        rw [hc, if_neg (Ne.symm hv.1), if_neg hcnul]
        have htake : ((if line.length < maxLen then line ++ [c] else line) ++ v).take maxLen =
            (line ++ c :: v).take maxLen := by
          split
          next => rw [List.append_assoc, List.singleton_append]
          next hlong =>
            rw [List.take_append_of_le_length (by omega), List.take_append_of_le_length (by omega)]
        have hkept : (if line.length < maxLen then line ++ [c] else line).length ≤ maxLen := by
          split
          next hshort =>
            rw [List.length_append, List.length_singleton]
            omega
          next => exact hline
        obtain ⟨w', hloop, hw'⟩ := ih hnext hrest hv.2 hkept (by dsimp only; split <;> omega)
        refine ⟨w', by rw [hloop, htake], ?_⟩
        rw [List.length_cons, show p + (v.length + 1) = p + 1 + v.length by omega]
        exact hw'

theorem retreat_zero (hat : At file bufSize w 0) : retreat file w = none := by
  obtain ⟨base, -, -, hfpos, hp⟩ := hat.read
  rw [retreat, if_pos (by omega), if_neg (by omega)]

theorem retreat_spec (hat : At file bufSize w p) (hp : 0 < p) :
    ∃ w', retreat file w = some w' ∧ At file bufSize w' p ∧ 0 < w'.page := by
  have hle := hat.le
  rw [retreat]
  by_cases hpage : w.page = 0
  · have hfpos := hat.start hpage
    rw [if_pos hpage, if_pos (by omega)]
    by_cases hfront : w.fpos < bufSize / 2 + w.buf.length
    · have hplace : w.fpos - w.buf.length = p := by omega
      rw [if_pos hfront, hplace]
      have hload : At file bufSize (load file bufSize 0 p) (0 + p) :=
        at_load (Nat.zero_le _) (by omega) (by omega)
      rw [Nat.zero_add] at hload
      exact ⟨_, rfl, hload, hp⟩
    · have hplace : w.fpos - (bufSize / 2 + w.buf.length) = p - bufSize / 2 := by omega
      rw [if_neg hfront, hplace]
      have hload : At file bufSize (load file bufSize (p - bufSize / 2) (bufSize / 2))
          (p - bufSize / 2 + bufSize / 2) := at_load (by omega) (by decide) (by omega)
      rw [show p - bufSize / 2 + bufSize / 2 = p by omega] at hload
      exact ⟨_, rfl, hload, show 0 < bufSize / 2 by decide⟩
  · rw [if_neg hpage]
    exact ⟨w, rfl, hat, by omega⟩

theorem getD_back (hat : At file bufSize w p) (hpage : 0 < w.page) :
    w.buf.getD (w.page - 1) nul = file.getD (p - 1) nul := by
  obtain ⟨hback, hlt⟩ := hat.back hpage
  rw [List.getD_eq_getElem?_getD, List.getD_eq_getElem?_getD, hback.get hlt]

theorem backLine_spec {front : Str} (hat : At file bufSize w p) (htake : file.take p = front ++ v)
    (hv : '\n' ∉ v)
    (hfront : ∀ c ∈ front.getLast?, c = '\n') (hfuel : p < fuel) :
    ∃ w', backLine file fuel w = some (w', front.isEmpty) ∧ At file bufSize w' (front.length - 1) ∧
      (front ≠ [] → w'.page < w'.buf.length) := by
  induction fuel generalizing w p v with
  | zero => exact absurd hfuel (Nat.not_lt_zero _)
  | succ fuel ih =>
    have hle := hat.le
    rw [backLine]
    rcases Nat.eq_zero_or_pos p with rfl | hp
    · rw [List.take_zero] at htake
      obtain ⟨rfl, rfl⟩ := List.append_eq_nil_iff.mp htake.symm
      rw [retreat_zero hat]
      exact ⟨w, rfl, hat, fun h => absurd rfl h⟩
    · obtain ⟨w', hretreat, hw', hpage⟩ := retreat_spec hat hp
      obtain ⟨hback, hlt⟩ := hw'.back hpage
      have hlast : file.take p = file.take (p - 1) ++ [file.getD (p - 1) nul] := by
        have hget : file.getD (p - 1) nul = file[p - 1] := by
          rw [List.getD_eq_getElem?_getD, List.getElem?_eq_getElem (by omega), Option.getD_some]
        rw [hget, List.take_append_getElem, show p - 1 + 1 = p by omega]
      rw [hretreat]
      dsimp only
      rw [getD_back hw' hpage]
      rw [hlast] at htake
      cases v using List.reverseRecOn with
      | nil =>
        rw [List.append_nil] at htake
        subst htake
        have hnewline : file.getD (p - 1) nul = '\n' := hfront _ (by rw [List.getLast?_concat]; rfl)
        have hlength : (file.take (p - 1) ++ [file.getD (p - 1) nul]).length - 1 = p - 1 := by
          rw [List.length_append, List.length_take, List.length_singleton]
          omega
        rw [if_pos hnewline, hlength]
        exact ⟨_, by simp, hback, fun _ => hlt⟩
      | append_singleton v c =>
        rw [← List.append_assoc] at htake
        obtain ⟨htake, hc⟩ := List.append_inj' htake rfl
        rw [List.mem_append, not_or, List.mem_singleton] at hv
        rw [(List.cons.inj hc).1, if_neg (Ne.symm hv.2)]
        exact ih hback htake hv.1 (by omega)

end Reading

section Pages

variable {file : Str} {height width k n t : Nat} {w : Window Char} {s : Pager}

/-- The place in the file where a line begins; behind the last line this is the end. -/
def spot (file : Str) (k : Nat) : Nat := Places.place '\n' (lines file) k

theorem joined_lines (file : Str) : ['\n'].intercalate (lines file) = file := List.intercalate_splitOn '\n'

theorem lines_ne_nil (file : Str) : lines file ≠ [] := List.splitOn_ne_nil '\n' file

theorem length_lines_pos (file : Str) : 0 < (lines file).length := List.length_pos_iff.mpr (lines_ne_nil file)

theorem newline_notMem_line (file : Str) (k : Nat) : '\n' ∉ Places.line (lines file) k := by
  rw [Places.line, List.getD_eq_getElem?_getD]
  by_cases hk : k < (lines file).length
  · rw [List.getElem?_eq_getElem hk, Option.getD_some]
    exact (mem_parts (List.getElem_mem hk)).1
  · rw [List.getElem?_eq_none (by omega), Option.getD_none]
    exact List.not_mem_nil

theorem spot_lt (hk : k < (lines file).length) : spot file k = Places.offset (lines file) k :=
  Places.place_eq hk

theorem spot_end (hk : (lines file).length ≤ k) : spot file k = file.length := by
  rw [spot, Places.place_end (lines_ne_nil file) hk, joined_lines]

theorem getLine_spec (hnul : nul ∉ file) (hat : At file bufSize s.window (spot file t)) :
    ∃ w, getLine file s = some ((Places.line (lines file) t).take maxLen,
        { s with window := w, endReached := decide ((lines file).length ≤ t + 1) }) ∧
      At file bufSize w (spot file (t + 1)) := by
  obtain ⟨back, hdrop, hhead, hback, hnext⟩ := Places.drop_place (d := '\n') (lines_ne_nil file) t
  rw [joined_lines] at hdrop
  have hfuel : 2 * (file.length - spot file t) + (if s.window.page = s.window.buf.length then 2 else 1) ≤
      2 * file.length + 2 := by split <;> omega
  obtain ⟨w, hloop, hw⟩ := getLineLoop_spec hnul hat hdrop (newline_notMem_line file t) hhead
    (show List.length [] ≤ maxLen from Nat.zero_le _) hfuel
  refine ⟨w, ?_, ?_⟩
  · rw [getLine, hloop, Option.map_some, List.nil_append, hback]
  · rw [spot, hnext]
    exact hw

theorem backLoop_spec (hk : 0 < k) (hkN : k ≤ (lines file).length)
    (hat : At file bufSize w (Places.offset (lines file) k - 1)) (hn : 0 < n) :
    ∃ w', backLoop file n w = some (w', decide (k ≤ n)) ∧ At file bufSize w' (spot file (k - n)) := by
  induction n generalizing k w with
  | zero => exact absurd hn (Nat.lt_irrefl _)
  | succ n ih =>
    obtain ⟨j, rfl⟩ : ∃ j, k = j + 1 := ⟨k - 1, by omega⟩
    obtain ⟨front, htake, hlength, hlast⟩ :=
      Places.take_offset (d := '\n') (show j < (lines file).length by omega)
    rw [joined_lines] at htake
    obtain ⟨w', hline, hw', hpage⟩ := backLine_spec hat htake (newline_notMem_line file j) hlast
      (Nat.lt_add_one_of_le hat.le)
    rw [backLoop, hline, Option.bind_some]
    rcases Nat.eq_zero_or_pos j with rfl | hj
    · obtain rfl : front = [] := List.length_eq_zero_iff.mp hlength
      refine ⟨w', by simp, ?_⟩
      rw [show 0 + 1 - (n + 1) = 0 by omega, spot, Places.place_zero]
      exact hw'
    · have hoffset : 0 < Places.offset (lines file) j := Places.offset_pos hj (lines_ne_nil file)
      have hfront : front ≠ [] := List.ne_nil_of_length_pos (by omega)
      rw [List.isEmpty_eq_false_iff.mpr hfront, if_neg Bool.false_ne_true]
      rw [hlength] at hw'
      cases n with
      | zero =>
        have hnext := hw'.next (hpage hfront)
        rw [show Places.offset (lines file) j - 1 + 1 = Places.offset (lines file) j by omega,
          ← spot_lt (by omega)] at hnext
        exact ⟨_, by rw [backLoop]; simp; omega, hnext⟩
      | succ n =>
        obtain ⟨w₂, hloop, hw₂⟩ := ih hj (by omega) hw' (Nat.succ_pos n)
        refine ⟨w₂, by rw [hloop]; simp, ?_⟩
        rw [show j + 1 - (n + 1 + 1) = j - (n + 1) by omega]
        exact hw₂

/-- From behind so many lines back over some of them; the internal error does not occur. -/
theorem backLines_spec (hk : 0 < k) (hkN : k ≤ (lines file).length)
    (hend : s.endReached = decide ((lines file).length ≤ k)) (hat : At file bufSize s.window (spot file k))
    (hn : 0 < n) :
    ∃ w, backLines file n s = some { s with window := w, beginReached := decide (k ≤ n) } ∧
      At file bufSize w (spot file (k - n)) := by
  rw [backLines]
  dsimp only
  rcases Nat.lt_or_eq_of_le hkN with hlt | rfl
  · have hoffset : 0 < Places.offset (lines file) k := Places.offset_pos hk (lines_ne_nil file)
    rw [spot_lt hlt] at hat
    obtain ⟨w, hretreat, hw, hpage⟩ := retreat_spec hat hoffset
    have hnewline := Places.get_offset (d := '\n') hk hlt
    rw [joined_lines] at hnewline
    obtain ⟨w', hloop, hw'⟩ := backLoop_spec hk hkN (hw.back hpage).1 hn
    rw [hend, decide_eq_false (by omega), if_neg (by decide), hretreat]
    dsimp only
    rw [getD_back hw hpage, List.getD_eq_getElem?_getD, hnewline, Option.getD_some, if_pos rfl, hloop]
    exact ⟨w', rfl, hw'⟩
  · have hoffset := Places.offset_length (d := '\n') (lines_ne_nil file)
    rw [joined_lines] at hoffset
    rw [spot_end (Nat.le_refl _), ← Nat.add_sub_cancel file.length 1, ← hoffset] at hat
    obtain ⟨w', hloop, hw'⟩ := backLoop_spec hk hkN hat hn
    rw [hend, decide_eq_true (Nat.le_refl _), if_pos rfl, hloop]
    exact ⟨w', rfl, hw'⟩

/-- What the turn for a row does: it reads the next line, and may set rows. -/
def Reads (file : Str) (hscroll t : Nat) (line : Nat → Pager → Option Pager) (put : Nat → List Str → List Str) : Prop :=
  ∀ i u, u.hscroll = hscroll → At file bufSize u.window (spot file (t + i)) →
    ∃ w, line i u =
        some { u with window := w, endReached := decide ((lines file).length ≤ t + i + 1), rows := put i u.rows } ∧
      At file bufSize w (spot file (t + i + 1))

variable {line : Nat → Pager → Option Pager} {put : Nat → List Str → List Str}

/-- Each turn reads the next line; the lines count up to the last one of the file. -/
theorem pageTurns_spec (ht : t < (lines file).length) (hs : At file bufSize s.window (spot file t))
    (hline : Reads file s.hscroll t line put) (m : Nat) :
    ∃ w e, (List.range m).foldlM (pageTurn line) ({ s with pageLength := 0 }, false) =
        some ({ s with window := w, endReached := e, pageLength := min m ((lines file).length - t),
                       rows := (List.range m).foldl (fun r i => put i r) s.rows },
              decide (0 < m ∧ (lines file).length ≤ t + m)) ∧
      At file bufSize w (spot file (t + m)) ∧ (0 < m → e = decide ((lines file).length ≤ t + m)) := by
  induction m with
  | zero => exact ⟨s.window, s.endReached, by simp, hs, fun h => absurd h (Nat.lt_irrefl _)⟩
  | succ m ih =>
    obtain ⟨w, e, hfold, hw, he⟩ := ih
    obtain ⟨w', hturn, hw'⟩ := hline m ⟨w, s.beginReached, e, min m ((lines file).length - t), s.hscroll,
      (List.range m).foldl (fun r i => put i r) s.rows⟩ rfl hw
    have hlength : (if decide (0 < m ∧ (lines file).length ≤ t + m) = true then min m ((lines file).length - t)
        else min m ((lines file).length - t) + 1) = min (m + 1) ((lines file).length - t) := by
      split
      next h =>
        have := of_decide_eq_true h
        omega
      next h =>
        have := of_decide_eq_false (Bool.eq_false_iff.mpr h)
        omega
    have hflag : (decide (0 < m ∧ (lines file).length ≤ t + m) || decide ((lines file).length ≤ t + m + 1)) =
        decide (0 < m + 1 ∧ (lines file).length ≤ t + (m + 1)) := by
      rw [← Bool.decide_or, decide_eq_decide]
      omega
    refine ⟨w', decide ((lines file).length ≤ t + m + 1), ?_, hw', fun _ => rfl⟩
    rw [List.range_succ, List.foldlM_append, hfold, List.foldl_append]
    simp only [Option.bind_eq_bind, Option.bind_some, List.foldlM_cons, List.foldlM_nil, pageTurn, hturn,
      Option.map_some, Option.pure_def, hlength, hflag, List.foldl_cons, List.foldl_nil]

theorem pageLoop_spec (ht : t < (lines file).length) (hheight : 0 < height)
    (hs : At file bufSize s.window (spot file t)) (hline : Reads file s.hscroll t line put) :
    ∃ w, pageLoop height line s =
        some { s with window := w, endReached := decide ((lines file).length ≤ t + height),
                      pageLength := min height ((lines file).length - t),
                      rows := (List.range height).foldl (fun r i => put i r) s.rows } ∧
      At file bufSize w (spot file (t + height)) := by
  obtain ⟨w, e, hfold, hw, he⟩ := pageTurns_spec ht hs hline height
  exact ⟨w, by rw [pageLoop, hfold, he hheight]; rfl, hw⟩

end Pages

section Views

variable {file : Str} {height width t : Nat} {s : Pager} {v : View}

/-- A line as a row shows it. -/
def lineRow (file : Str) (width hscroll k : Nat) : Str := shown width hscroll (((lines file).getD k []).take maxLen)

theorem printLine_reads (hnul : nul ∉ file) (width hscroll t : Nat) :
    Reads file hscroll t (printLine file width)
      (fun i r => r.set i (lineRow file width hscroll (t + i))) := by
  intro i u hu hat
  obtain ⟨w, hline, hw⟩ := getLine_spec hnul hat
  refine ⟨w, ?_, hw⟩
  rw [printLine, hline, Option.map_some, ← hu]
  rfl

theorem rows_eq (file : Str) (height width : Nat) (v : View) :
    v.rows file height width = ScrolledRows.view (lineRow file width v.hscroll) v.top height := rfl

theorem length_rows (file : Str) (height width : Nat) (v : View) : (v.rows file height width).length = height := by
  rw [rows_eq, ScrolledRows.length_view]

/-- A loop of which only the first turn sets rows. -/
theorem first_turn (g : List Str → List Str) (r : List Str) (hheight : 0 < height) :
    (List.range height).foldl (fun r i => if i = 0 then g r else r) r = g r := by
  obtain ⟨m, rfl⟩ : ∃ m, height = m + 1 := ⟨height - 1, by omega⟩
  rw [List.range_succ_eq_map, List.foldl_cons, if_pos rfl, List.foldl_map]
  simp

/-- The dialog's variables and rows are those of a view. -/
structure Shows (file : Str) (height width : Nat) (s : Pager) (v : View) : Prop where
  top : v.top < (lines file).length
  window : At file bufSize s.window (spot file (v.top + height))
  begin : s.beginReached = decide (v.top = 0)
  ended : s.endReached = decide ((lines file).length ≤ v.top + height)
  length : s.pageLength = min height ((lines file).length - v.top)
  hscroll : s.hscroll = v.hscroll
  column : v.hscroll ≤ maxLen
  rows : s.rows = v.rows file height width

theorem printPage_shows (hnul : nul ∉ file) (hheight : 0 < height) (ht : t < (lines file).length)
    (hat : At file bufSize s.window (spot file t)) (hbegin : s.beginReached = decide (t = 0))
    (hcolumn : s.hscroll ≤ maxLen) (hrows : s.rows.length = height) :
    ∃ s', printPage file height width s = some s' ∧ Shows file height width s' ⟨t, s.hscroll⟩ := by
  obtain ⟨w, hloop, hw⟩ := pageLoop_spec ht hheight hat (printLine_reads hnul width s.hscroll t)
  refine ⟨_, hloop, ht, hw, hbegin, rfl, rfl, rfl, hcolumn, ?_⟩
  dsimp only
  rw [ScrolledRows.set_rows _ _ (Nat.le_of_eq hrows.symm), List.drop_of_length_le (Nat.le_of_eq hrows), List.append_nil]
  rfl

theorem Shows.back (h : Shows file height width s v) (hheight : 0 < height) {n : Nat} (hn : 0 < n) (c : Nat) :
    ∃ w, backLines file n { s with hscroll := c } =
        some { s with hscroll := c, window := w,
                      beginReached := decide (min (v.top + height) (lines file).length ≤ n) } ∧
      At file bufSize w (spot file (min (v.top + height) (lines file).length - n)) := by
  have htop := h.top
  refine backLines_spec (by omega) (Nat.min_le_right _ _) ?_ ?_ hn
  · rw [h.ended, decide_eq_decide]
    omega
  · have hwindow := h.window
    rcases Nat.le_total (lines file).length (v.top + height) with hle | hle
    · rw [spot_end hle] at hwindow
      rw [Nat.min_eq_right hle, spot_end (Nat.le_refl _)]
      exact hwindow
    · rw [Nat.min_eq_left hle]
      exact hwindow

theorem Shows.first (h : Shows file height width s v) (hnul : nul ∉ file) (hheight : 0 < height) :
    ∃ s', first file height width s = some s' ∧ Shows file height width s' { v with top := 0 } := by
  rw [TextBox.first, h.begin]
  by_cases htop : v.top = 0
  · rw [if_pos (decide_eq_true htop)]
    refine ⟨s, rfl, ?_⟩
    rw [← htop]
    exact h
  · rw [if_neg (by simpa using htop)]
    dsimp only
    rw [← h.hscroll]
    refine printPage_shows hnul hheight (length_lines_pos file) ?_ rfl (h.hscroll ▸ h.column)
      (h.rows ▸ length_rows file height width v)
    rw [spot, Places.place_zero]
    dsimp only
    split
    next => exact at_load (Nat.zero_le _) (Nat.zero_le _) (Nat.zero_le _)
    next hfpos => exact h.window.toStart (Nat.le_of_not_lt hfpos)

theorem Shows.last (h : Shows file height width s v) (hnul : nul ∉ file) (hheight : 0 < height) :
    ∃ s', last file height width s = some s' ∧
      Shows file height width s' { v with top := (lines file).length - height } := by
  have hpos := length_lines_pos file
  have hfinish : ∀ u, u.hscroll = v.hscroll → u.rows.length = height → u.endReached = true →
      At file bufSize u.window file.length →
      ∃ s', (backLines file height u).bind (printPage file height width) = some s' ∧
        Shows file height width s' { v with top := (lines file).length - height } := by
    intro u hcolumn hrows hended hu
    rw [← spot_end (Nat.le_refl _)] at hu
    obtain ⟨w, hback, hw⟩ := backLines_spec hpos (Nat.le_refl _) (by rw [hended]; simp) hu hheight
    rw [hback, Option.bind_some, ← hcolumn]
    refine printPage_shows hnul hheight (by omega) hw ?_ (hcolumn ▸ h.column) hrows
    rw [decide_eq_decide]
    omega
  have hrows : s.rows.length = height := h.rows ▸ length_rows file height width v
  have hle := h.window.fpos_le
  rw [TextBox.last]
  dsimp only
  by_cases hmore : s.window.fpos < file.length
  · -- a window that ends before the file is a full one
    have hsize := h.window.full hmore
    have hload : At file bufSize (load file bufSize (file.length - bufSize) 0) (file.length - bufSize + 0) :=
      at_load (by omega) (Nat.zero_le _) (by omega)
    have hfpos : (load file bufSize (file.length - bufSize) 0).fpos = file.length := by
      dsimp only [load]
      rw [length_part]
      omega
    rw [if_pos hmore, if_neg (by omega)]
    exact hfinish _ h.hscroll hrows rfl (hload.toEnd hfpos)
  · have hfpos : s.window.fpos = file.length := by omega
    rw [if_neg hmore]
    exact hfinish _ h.hscroll hrows rfl (h.window.toEnd hfpos)

theorem Shows.previousLine (h : Shows file height width s v) (hnul : nul ∉ file) (hheight : 0 < height) :
    ∃ s', previousLine file height width s = some s' ∧
    Shows file height width s' { v with top := v.top - 1 } := by
  rw [TextBox.previousLine, h.begin]
  by_cases htop : v.top = 0
  · have hsame : v.top - 1 = v.top := by omega
    rw [if_pos (decide_eq_true htop), hsame]
    exact ⟨s, rfl, h⟩
  · have hlt := h.top
    have hlength := h.length
    obtain ⟨w, hback, hw⟩ := h.back hheight (Nat.succ_pos s.pageLength) s.hscroll
    rw [show min (v.top + height) (lines file).length - (s.pageLength + 1) = v.top - 1 by omega] at hw
    rw [if_neg (by simpa using htop), hback, Option.bind_some]
    have hline : Reads file s.hscroll (v.top - 1)
        (fun i s => if i = 0 then printLine file width 0 s else (getLine file s).map Prod.snd)
        (fun i r => if i = 0 then r.set 0 (lineRow file width s.hscroll (v.top - 1)) else r) := by
      intro i u hu hat
      dsimp only
      by_cases hi : i = 0
      · subst hi
        exact printLine_reads hnul width s.hscroll (v.top - 1) 0 u hu hat
      · obtain ⟨w, hline, hw⟩ := getLine_spec hnul hat
        rw [if_neg hi, if_neg hi, hline]
        exact ⟨w, rfl, hw⟩
    obtain ⟨w', hloop, hw'⟩ := pageLoop_spec (s := ⟨w, _, _, _, s.hscroll, ([] :: s.rows).dropLast⟩) (by omega) hheight
      hw hline
    refine ⟨_, hloop, by dsimp only; omega, hw', ?_, rfl, rfl, h.hscroll, h.column, ?_⟩
    · dsimp only
      rw [decide_eq_decide]
      omega
    · dsimp only
      rw [first_turn (fun r => r.set 0 (lineRow file width s.hscroll (v.top - 1))) _ hheight, h.rows, h.hscroll, rows_eq]
      exact ScrolledRows.view_down [] (by omega) hheight

theorem Shows.nextLine (h : Shows file height width s v) (hnul : nul ∉ file) (hheight : 0 < height) :
    ∃ s', nextLine file height width s = some s' ∧ Shows file height width s'
      (if v.top + height < (lines file).length then { v with top := v.top + 1 } else v) := by
  rw [TextBox.nextLine, h.ended]
  by_cases hmore : v.top + height < (lines file).length
  · have hlength := h.length
    have hwindow := h.window
    rw [show v.top + height = v.top + 1 + (height - 1) by omega] at hwindow
    obtain ⟨w, hline, hw⟩ := printLine_reads hnul width s.hscroll (v.top + 1) (height - 1)
      { s with beginReached := false, rows := s.rows.tail ++ [[]] } rfl hwindow
    rw [show v.top + 1 + (height - 1) + 1 = v.top + 1 + height by omega] at hline hw
    rw [if_neg (by simpa using hmore), if_pos hmore]
    refine ⟨_, hline, by dsimp only; omega, hw, by simp, rfl, by dsimp only; omega, h.hscroll, h.column, ?_⟩
    dsimp only
    rw [h.rows]
    rw [show v.top + 1 + (height - 1) = v.top + height by omega, h.hscroll, rows_eq]
    exact ScrolledRows.view_up _ _ [] hheight
  · rw [if_pos (by simpa using hmore), if_neg hmore]
    exact ⟨s, rfl, h⟩

theorem Shows.nextPage (h : Shows file height width s v) (hnul : nul ∉ file) (hheight : 0 < height) :
    ∃ s', nextPage file height width s = some s' ∧ Shows file height width s'
      (if v.top + height < (lines file).length then { v with top := v.top + height } else v) := by
  rw [TextBox.nextPage, h.ended]
  by_cases hmore : v.top + height < (lines file).length
  · rw [if_neg (by simpa using hmore), if_pos hmore, ← h.hscroll]
    exact printPage_shows hnul hheight hmore h.window (by simp; omega) (h.hscroll ▸ h.column)
      (h.rows ▸ length_rows file height width v)
  · rw [if_pos (by simpa using hmore), if_neg hmore]
    exact ⟨s, rfl, h⟩

/-- Back from behind the page, and a page from there on. -/
theorem Shows.printBack (h : Shows file height width s v) (hnul : nul ∉ file) (hheight : 0 < height)
    {n c : Nat}
    (hc : c ≤ maxLen) (hn : 0 < n) :
    ∃ s', (backLines file n { s with hscroll := c }).bind (printPage file height width) = some s' ∧
      Shows file height width s' ⟨min (v.top + height) (lines file).length - n, c⟩ := by
  have htop := h.top
  obtain ⟨w, hback, hw⟩ := h.back hheight hn c
  rw [hback, Option.bind_some]
  refine printPage_shows hnul hheight (by omega) hw ?_ hc (h.rows ▸ length_rows file height width v)
  rw [decide_eq_decide]
  omega

theorem Shows.previousPage (h : Shows file height width s v) (hnul : nul ∉ file) (hheight : 0 < height) :
    ∃ s', previousPage file height width s = some s' ∧
      Shows file height width s' { v with top := v.top - height } := by
  rw [TextBox.previousPage, h.begin]
  by_cases htop : v.top = 0
  · have hsame : v.top - height = v.top := by omega
    rw [if_pos (decide_eq_true htop), hsame]
    exact ⟨s, rfl, h⟩
  · have hlt := h.top
    have hlength := h.length
    rw [if_neg (by simpa using htop), ← h.hscroll]
    have hprint := h.printBack hnul hheight (n := s.pageLength + height) (h.hscroll ▸ h.column) (by omega)
    rw [show min (v.top + height) (lines file).length - (s.pageLength + height) = v.top - height by omega]
      at hprint
    exact hprint

theorem Shows.reprint (h : Shows file height width s v) (hnul : nul ∉ file) (hheight : 0 < height) {c : Nat}
    (hc : c ≤ maxLen) :
    ∃ s', reprint file height width c s = some s' ∧ Shows file height width s' { v with hscroll := c } := by
  have hlt := h.top
  have hlength := h.length
  have hprint := h.printBack hnul hheight (n := s.pageLength) hc (by omega)
  rw [show min (v.top + height) (lines file).length - s.pageLength = v.top by omega] at hprint
  exact hprint

theorem Shows.step (h : Shows file height width s v) (hnul : nul ∉ file) (hheight : 0 < height)
    (command : Command) :
    ∃ s', s.step file height width command = some s' ∧
      Shows file height width s' (v.step (lines file).length height command) := by
  have hcolumn := h.column
  cases command with
  | first => exact h.first hnul hheight
  | last => exact h.last hnul hheight
  | previousLine => exact h.previousLine hnul hheight
  | previousPage => exact h.previousPage hnul hheight
  | nextLine => exact h.nextLine hnul hheight
  | nextPage => exact h.nextPage hnul hheight
  | lineStart =>
    rw [Pager.step, View.step, h.hscroll]
    by_cases hzero : v.hscroll = 0
    · rw [if_pos hzero, ← hzero]
      exact ⟨s, rfl, h⟩
    · rw [if_neg hzero]
      exact h.reprint hnul hheight (Nat.zero_le _)
  | scrollLeft =>
    rw [Pager.step, View.step, h.hscroll]
    by_cases hzero : v.hscroll = 0
    · rw [if_pos hzero, show v.hscroll - 1 = v.hscroll by omega]
      exact ⟨s, rfl, h⟩
    · rw [if_neg hzero]
      exact h.reprint hnul hheight (by omega)
  | scrollRight =>
    rw [Pager.step, View.step, h.hscroll]
    by_cases hmax : maxLen ≤ v.hscroll
    · rw [if_pos hmax, if_pos hmax]
      exact ⟨s, rfl, h⟩
    · rw [if_neg hmax, if_neg hmax]
      exact h.reprint hnul hheight (by omega)
  | exit => exact ⟨s, rfl, h⟩
  | escape => exact ⟨s, rfl, h⟩
  | none => exact ⟨s, rfl, h⟩

theorem Shows.run (h : Shows file height width s v) (hnul : nul ∉ file) (hheight : 0 < height)
    (keys : List Key) :
    ∃ s', Pager.run file height width keys s = some (s', (v.run (lines file).length height keys).2) ∧
      Shows file height width s' (v.run (lines file).length height keys).1 := by
  induction keys generalizing s v with
  | nil => exact ⟨s, rfl, h⟩
  | cons key keys ih =>
    obtain ⟨s₁, hstep, h₁⟩ := h.step hnul hheight key.command
    obtain ⟨s₂, hrun, h₂⟩ := ih h₁
    rw [Pager.run, View.run]
    cases hcommand : key.command with
    | exit => exact ⟨s, rfl, h⟩
    | escape => exact ⟨s, rfl, h⟩
    | _ =>
      rw [hcommand] at hstep hrun h₂
      dsimp only
      rw [hstep, Option.bind_some]
      exact ⟨s₂, hrun, h₂⟩

end Views

end T2SDE.TextBox
