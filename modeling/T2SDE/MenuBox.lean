import Mathlib.Logic.Function.Iterate
import T2SDE.Lib.CString
import T2SDE.Lib.ScrolledRows

namespace T2SDE.MenuBox

open Text CString ScrolledRows

section Program

structure Item where
  tag : Str
  text : Str

/-- A row of the menu window, with the place of the highlighted letter. -/
structure Row where
  text : Str
  hot : Option Nat
  selected : Bool

/-- What `dialog_menu` keeps in its variables, with the rows of its window and the two arrows. -/
structure Menu where
  scroll : Nat
  choice : Nat
  button : Nat
  rows : List Row
  arrows : Bool × Bool

inductive Key
  | char (c : Char)
  | up
  | down
  | left
  | right
  | ppage
  | npage
  | other
  deriving DecidableEq

inductive Move
  | up
  | down
  | ppage
  | npage
  | hot (i : Nat)

def firstAlphaLoop (exempt : Str) : Int → Nat → Str → Nat
  | _, _, [] => 0
  | paren, i, c :: s =>
    let c := c.toLower
    let paren := if c ∈ ['<', '[', '('] then paren + 1 else paren
    let paren := if c ∈ ['>', ']', ')'] then paren - 1 else paren
    if paren = 0 ∧ c.isAlpha ∧ c ∉ exempt then i else firstAlphaLoop exempt paren (i + 1) s

/-- `first_alpha` -/
def firstAlpha (string exempt : Str) : Nat := firstAlphaLoop exempt 0 0 string

def exempt : Str := ['Y', 'y', 'N', 'n', 'M', 'm']

def blank : Row := ⟨[], none, false⟩

variable (items : List Item) (menuHeight menuWidth : Nat)

def item (k : Nat) : Item := items.getD k ⟨[], []⟩

def maxChoice : Nat := min menuHeight items.length

/-- The row that `print_item` prints. -/
def itemRow (selected : Bool) (k : Nat) : Row :=
  let menuItem := (item items k).text.take menuWidth
  ⟨menuItem, if (item items k).tag.head? ≠ some ':' then some (firstAlpha menuItem exempt) else none, selected⟩

def printItem (k choice : Nat) (selected : Bool) (s : Menu) : Menu :=
  { s with rows := s.rows.set choice (itemRow items menuWidth selected k) }

def printArrows (s : Menu) : Menu :=
  { s with arrows := (decide (0 < s.scroll),
                      decide (menuHeight < items.length ∧ s.scroll + menuHeight < items.length)) }

/-- The letter that chooses an item. -/
def hotKey (k : Nat) : Char :=
  let text := (item items k).text
  (text.getD (firstAlpha text exempt) nul).toLower

/-- The search for an item with a letter, behind the chosen one first. -/
def search (key : Char) (scroll choice : Nat) : Option Nat :=
  let fits (i : Nat) : Bool := key == hotKey items (scroll + i)
  if key ∈ ['?', ' ', '\n', nul] then none
  else
    ((List.range' (choice + 1) (maxChoice items menuHeight - (choice + 1))).find? fits).or
      ((List.range (maxChoice items menuHeight)).find? fits)

def move (scroll choice : Nat) : Key → Option Move
  | .up => some .up
  | .down => some .down
  | .ppage => some .ppage
  | .npage => some .npage
  | .char c =>
    if c = '-' then some .up
    else if c = '+' then some .down
    else (search items menuHeight c.toLower scroll choice).map .hot
  | .left | .right | .other => none

/-- `wscrl (menu, -1)`, and the item that comes in. -/
def scrollBack (s : Menu) : Menu :=
  printItem items menuWidth (s.scroll - 1) 0 false
    { s with rows := (blank :: s.rows).dropLast, scroll := s.scroll - 1 }

/-- `scroll (menu)`, and the item that comes in. -/
def scrollOn (s : Menu) : Menu :=
  printItem items menuWidth (s.scroll + 1 + maxChoice items menuHeight - 1) (maxChoice items menuHeight - 1) false
    { s with rows := s.rows.tail ++ [blank], scroll := s.scroll + 1 }

def up (s : Menu) : Menu :=
  if s.choice < 2 ∧ 0 < s.scroll then scrollBack items menuWidth s else { s with choice := s.choice - 1 }

def down (s : Menu) : Menu :=
  let s := printItem items menuWidth (s.scroll + s.choice) s.choice false s
  if maxChoice items menuHeight < s.choice + 3 ∧ s.scroll + maxChoice items menuHeight < items.length then
    scrollOn items menuHeight menuWidth s
  else { s with choice := min (s.choice + 1) (maxChoice items menuHeight - 1) }

/-- A turn of the loop for a page up. -/
def pageUp (s : Menu) : Menu :=
  if 0 < s.scroll then scrollBack items menuWidth s
  else if 0 < s.choice then { s with choice := s.choice - 1 } else s

/-- A turn of the loop for a page down. -/
def pageDown (s : Menu) : Menu :=
  if s.scroll + maxChoice items menuHeight < items.length then scrollOn items menuHeight menuWidth s
  else if s.choice + 1 < maxChoice items menuHeight then { s with choice := s.choice + 1 } else s

def go (s : Menu) : Move → Menu
  | .up => up items menuWidth s
  | .down => down items menuHeight menuWidth s
  | .ppage => (pageUp items menuWidth)^[maxChoice items menuHeight] s
  | .npage => (pageDown items menuHeight menuWidth)^[maxChoice items menuHeight] s
  | .hot i => { s with choice := i }

/-- The chosen item is printed as another one, and the one that is chosen then as the chosen one. -/
def moved (s : Menu) (m : Move) : Menu :=
  let s := printItem items menuWidth (s.scroll + s.choice) s.choice false s
  let s := go items menuHeight menuWidth s m
  let s := printItem items menuWidth (s.scroll + s.choice) s.choice true s
  printArrows items menuHeight s

/-- What is written for an item and returned. -/
def answer (k button : Nat) : Int × Str :=
  let it := item items k
  (button,
    if button = 2 then it.tag ++ [' ', '"'] ++ it.text.drop (firstAlpha it.text []) ++ ['"', '\n'] else it.tag ++ ['\n'])

def turned (button : Nat) : Key → Nat
  | .left => if button = 0 then 2 else button - 1
  | _ => if 2 ≤ button then 0 else button + 1

/-- The loop of `dialog_menu`: its state, and what it has returned. -/
def run : List Key → Menu → Menu × Option (Int × Str)
  | [], s => (s, none)
  | key :: keys, s =>
    match move items menuHeight s.scroll s.choice key with
    | some m =>
      let s := moved items menuHeight menuWidth s m
      if key = .char '\x1b' then (s, some (-1, [])) else run keys s
    | none =>
      if key ∈ [.left, .right, .char '\t'] then run keys { s with button := turned s.button key }
      else if key = .char '?' then ({ s with button := 2 }, some (answer items (s.scroll + s.choice) 2))
      else if key = .char ' ' then ({ s with button := 0 }, some (answer items (s.scroll + s.choice) 0))
      else if key = .char '\n' then (s, some (answer items (s.scroll + s.choice) s.button))
      else if key = .char '\x1b' then (s, some (-1, []))
      else run keys s

/-- The last item with the tag that is the current one. -/
def current (tag : Str) : Nat :=
  (((List.range items.length).filter fun k => (item items k).tag = tag).getLast?).getD 0

/-- Where the menu begins; the number is what was read from `confdialog.scrltmp`. -/
def firstItem (stored : Option Int) (choice : Nat) : Nat :=
  let centred : Nat :=
    if maxChoice items menuHeight ≤ choice ∨ maxChoice items menuHeight / 2 ≤ choice then
      if items.length - maxChoice items menuHeight / 2 ≤ choice then items.length - maxChoice items menuHeight
      else choice - maxChoice items menuHeight / 2
    else 0
  match stored with
  | some scroll =>
    if scroll ≤ choice ∧ choice < scroll + maxChoice items menuHeight ∧ 0 ≤ scroll ∧
        scroll + maxChoice items menuHeight ≤ items.length then scroll.toNat
    else centred
  | none => centred

/-- The dialog when it waits for the first key. -/
def opened (stored : Option Int) (tag : Str) : Menu :=
  let scroll := firstItem items menuHeight stored (current items tag)
  let choice := current items tag - scroll
  let rows := (List.range (maxChoice items menuHeight)).foldl (fun rows i =>
    rows.set i (itemRow items menuWidth (decide (i = choice)) (scroll + i))) (List.replicate menuHeight blank)
  printArrows items menuHeight ⟨scroll, choice, 0, rows, (false, false)⟩

def dialogMenu (stored : Option Int) (tag : Str) (keys : List Key) : Menu × Option (Int × Str) :=
  run items menuHeight menuWidth keys (opened items menuHeight menuWidth stored tag)

end Program

section Purpose

/-- What a menu shows: the first item, the chosen one and the button. -/
structure View where
  top : Nat
  cur : Nat
  button : Nat

variable (items : List Item) (menuHeight : Nat)

/-- The chosen item is moved like a cursor in the list; what is shown is moved only as far as that calls for. -/
def View.step (v : View) : Move → View
  | .up => { v with top := if v.cur < v.top + 2 then v.top - 1 else v.top, cur := v.cur - 1 }
  | .down =>
    { v with top := if v.top + maxChoice items menuHeight < v.cur + 3 ∧
                        v.top + maxChoice items menuHeight < items.length then v.top + 1 else v.top,
             cur := min (v.cur + 1) (items.length - 1) }
  | .ppage => { v with top := v.top - maxChoice items menuHeight, cur := v.cur - maxChoice items menuHeight }
  | .npage =>
    { v with top := min (v.top + maxChoice items menuHeight) (items.length - maxChoice items menuHeight),
             cur := min (v.cur + maxChoice items menuHeight) (items.length - 1) }
  | .hot i => { v with cur := v.top + i }

def View.run : List Key → View → View × Option (Int × Str)
  | [], v => (v, none)
  | key :: keys, v =>
    match move items menuHeight v.top (v.cur - v.top) key with
    | some m =>
      let v := v.step items menuHeight m
      if key = .char '\x1b' then (v, some (-1, [])) else run keys v
    | none =>
      if key ∈ [.left, .right, .char '\t'] then run keys { v with button := turned v.button key }
      else if key = .char '?' then ({ v with button := 2 }, some (answer items v.cur 2))
      else if key = .char ' ' then ({ v with button := 0 }, some (answer items v.cur 0))
      else if key = .char '\n' then (v, some (answer items v.cur v.button))
      else if key = .char '\x1b' then (v, some (-1, []))
      else run keys v

end Purpose

section Rows

variable {items : List Item} {menuHeight menuWidth : Nat} {s : Menu} {v : View}

theorem maxChoice_le (items : List Item) (menuHeight : Nat) :
    maxChoice items menuHeight ≤ menuHeight ∧ maxChoice items menuHeight ≤ items.length ∧
      (maxChoice items menuHeight < items.length → maxChoice items menuHeight = menuHeight) := by
  rw [maxChoice]
  omega

/-- The rows where none is the chosen one. -/
def listed (items : List Item) (menuHeight menuWidth top : Nat) : List Row :=
  view (itemRow items menuWidth false) top (maxChoice items menuHeight) ++
    List.replicate (menuHeight - maxChoice items menuHeight) blank

theorem listed_set {top i : Nat} (hi : i < maxChoice items menuHeight) :
    (listed items menuHeight menuWidth top).set i (itemRow items menuWidth false (top + i)) =
      listed items menuHeight menuWidth top := by
  have hlength := length_view (itemRow items menuWidth false) top (maxChoice items menuHeight)
  rw [listed, List.set_append_left _ _ (by omega), view_set _ _ hi]

/-- Where the list is longer than the window, there are no rows without an item. -/
theorem listed_full (hmore : maxChoice items menuHeight < items.length) (top : Nat) :
    listed items menuHeight menuWidth top =
      view (itemRow items menuWidth false) top (maxChoice items menuHeight) := by
  rw [listed, (maxChoice_le items menuHeight).2.2 hmore, Nat.sub_self, List.replicate_zero, List.append_nil]

/-- A menu between the two prints of the chosen item. -/
structure Plain (items : List Item) (menuHeight menuWidth : Nat) (s : Menu) (v : View) : Prop where
  rows : s.rows = listed items menuHeight menuWidth v.top
  scroll : s.scroll = v.top
  choice : v.top + s.choice = v.cur
  button : s.button = v.button
  within : s.choice < maxChoice items menuHeight
  fits : v.top + maxChoice items menuHeight ≤ items.length

theorem Plain.scrollBack (h : Plain items menuHeight menuWidth s v) (htop : 0 < v.top) :
    Plain items menuHeight menuWidth (scrollBack items menuWidth s) { v with top := v.top - 1, cur := v.cur - 1 } := by
  have hfits := h.fits
  have hwithin := h.within
  have hchoice := h.choice
  have hmore : maxChoice items menuHeight < items.length := by omega
  refine ⟨?_, ?_, ?_, h.button, hwithin, ?_⟩
  · rw [MenuBox.scrollBack, printItem, h.rows, h.scroll, listed_full hmore, listed_full hmore]
    exact view_down blank htop (by omega)
  · rw [MenuBox.scrollBack, printItem, h.scroll]
  · dsimp only [MenuBox.scrollBack, printItem]
    omega
  · dsimp only
    omega

theorem Plain.scrollOn (h : Plain items menuHeight menuWidth s v)
    (hmore : v.top + maxChoice items menuHeight < items.length) :
    Plain items menuHeight menuWidth (scrollOn items menuHeight menuWidth s)
      { v with top := v.top + 1, cur := v.cur + 1 } := by
  have hwithin := h.within
  have hchoice := h.choice
  have hlonger : maxChoice items menuHeight < items.length := by omega
  refine ⟨?_, ?_, ?_, h.button, hwithin, ?_⟩
  · rw [MenuBox.scrollOn, printItem, h.rows, h.scroll, listed_full hlonger, listed_full hlonger,
      show v.top + 1 + maxChoice items menuHeight - 1 = v.top + maxChoice items menuHeight by omega]
    exact view_up _ _ blank (by omega)
  · rw [MenuBox.scrollOn, printItem, h.scroll]
  · dsimp only [MenuBox.scrollOn, printItem]
    omega
  · dsimp only
    omega

/-- The choice alone is moved. -/
theorem Plain.choose (h : Plain items menuHeight menuWidth s v) {c : Nat} (hc : c < maxChoice items menuHeight) :
    Plain items menuHeight menuWidth { s with choice := c } { v with cur := v.top + c } :=
  ⟨h.rows, h.scroll, rfl, h.button, hc, h.fits⟩

theorem Plain.up (h : Plain items menuHeight menuWidth s v) :
    Plain items menuHeight menuWidth (up items menuWidth s) (v.step items menuHeight .up) := by
  have hwithin := h.within
  have hchoice := h.choice
  have hscroll := h.scroll
  rw [MenuBox.up, View.step]
  by_cases hback : s.choice < 2 ∧ 0 < s.scroll
  · rw [if_pos hback, if_pos (by omega)]
    exact h.scrollBack (by omega)
  · have htop : (if v.cur < v.top + 2 then v.top - 1 else v.top) = v.top := by
      split <;> omega
    have hcur : v.cur - 1 = v.top + (s.choice - 1) := by omega
    rw [if_neg hback, htop, hcur]
    exact h.choose (by omega)

theorem Plain.printed (h : Plain items menuHeight menuWidth s v) :
    Plain items menuHeight menuWidth (printItem items menuWidth (s.scroll + s.choice) s.choice false s) v := by
  refine ⟨?_, h.scroll, h.choice, h.button, h.within, h.fits⟩
  rw [printItem, h.rows, h.scroll]
  exact listed_set h.within

theorem Plain.downwards (h : Plain items menuHeight menuWidth s v) :
    Plain items menuHeight menuWidth
      (if maxChoice items menuHeight < s.choice + 3 ∧ s.scroll + maxChoice items menuHeight < items.length then
        MenuBox.scrollOn items menuHeight menuWidth s
      else { s with choice := min (s.choice + 1) (maxChoice items menuHeight - 1) })
      (v.step items menuHeight .down) := by
  have hwithin := h.within
  have hchoice := h.choice
  have hscroll := h.scroll
  have hfits := h.fits
  rw [View.step]
  by_cases hon : maxChoice items menuHeight < s.choice + 3 ∧ s.scroll + maxChoice items menuHeight < items.length
  · rw [if_pos hon, if_pos (by omega), show min (v.cur + 1) (items.length - 1) = v.cur + 1 by omega]
    exact h.scrollOn (by omega)
  · rw [if_neg hon, if_neg (by omega), show min (v.cur + 1) (items.length - 1) =
      v.top + min (s.choice + 1) (maxChoice items menuHeight - 1) by omega]
    exact h.choose (by omega)

theorem Plain.down (h : Plain items menuHeight menuWidth s v) :
    Plain items menuHeight menuWidth (down items menuHeight menuWidth s) (v.step items menuHeight .down) :=
  h.printed.downwards

theorem Plain.pageUp (h : Plain items menuHeight menuWidth s v) :
    Plain items menuHeight menuWidth (pageUp items menuWidth s) { v with top := v.top - 1, cur := v.cur - 1 } := by
  have hwithin := h.within
  have hchoice := h.choice
  have hscroll := h.scroll
  rw [MenuBox.pageUp]
  by_cases htop : 0 < s.scroll
  · rw [if_pos htop]
    exact h.scrollBack (by omega)
  · rw [if_neg htop, show v.top - 1 = v.top by omega]
    by_cases hpos : 0 < s.choice
    · rw [if_pos hpos, show v.cur - 1 = v.top + (s.choice - 1) by omega]
      exact h.choose (by omega)
    · rw [if_neg hpos, show v.cur - 1 = v.cur by omega]
      exact h

theorem Plain.pageDown (h : Plain items menuHeight menuWidth s v) :
    Plain items menuHeight menuWidth (pageDown items menuHeight menuWidth s)
      { v with top := min (v.top + 1) (items.length - maxChoice items menuHeight),
               cur := min (v.cur + 1) (items.length - 1) } := by
  have hwithin := h.within
  have hchoice := h.choice
  have hscroll := h.scroll
  have hfits := h.fits
  rw [MenuBox.pageDown]
  by_cases hmore : s.scroll + maxChoice items menuHeight < items.length
  · rw [if_pos hmore, show min (v.top + 1) (items.length - maxChoice items menuHeight) = v.top + 1 by omega,
      show min (v.cur + 1) (items.length - 1) = v.cur + 1 by omega]
    exact h.scrollOn (by omega)
  · rw [if_neg hmore, show min (v.top + 1) (items.length - maxChoice items menuHeight) = v.top by omega]
    by_cases hnext : s.choice + 1 < maxChoice items menuHeight
    · rw [if_pos hnext, show min (v.cur + 1) (items.length - 1) = v.top + (s.choice + 1) by omega]
      exact h.choose hnext
    · rw [if_neg hnext, show min (v.cur + 1) (items.length - 1) = v.cur by omega]
      exact h

theorem Plain.pagesUp (h : Plain items menuHeight menuWidth s v) (k : Nat) :
    Plain items menuHeight menuWidth ((MenuBox.pageUp items menuWidth)^[k] s)
      { v with top := v.top - k, cur := v.cur - k } := by
  induction k with
  | zero => exact h
  | succ k ih =>
    rw [Function.iterate_succ_apply']
    exact ih.pageUp

theorem Plain.pagesDown (h : Plain items menuHeight menuWidth s v) (k : Nat) :
    Plain items menuHeight menuWidth ((MenuBox.pageDown items menuHeight menuWidth)^[k] s)
      { v with top := min (v.top + k) (items.length - maxChoice items menuHeight),
               cur := min (v.cur + k) (items.length - 1) } := by
  have hwithin := h.within
  have hchoice := h.choice
  have hfits := h.fits
  induction k with
  | zero =>
    rw [Nat.add_zero, Nat.add_zero, Nat.min_eq_left (by omega), Nat.min_eq_left (by omega)]
    exact h
  | succ k ih =>
    have hnext := ih.pageDown
    dsimp only at hnext
    rw [Function.iterate_succ_apply', show min (v.top + (k + 1)) (items.length - maxChoice items menuHeight) =
        min (min (v.top + k) (items.length - maxChoice items menuHeight) + 1)
          (items.length - maxChoice items menuHeight) by omega,
      show min (v.cur + (k + 1)) (items.length - 1) = min (min (v.cur + k) (items.length - 1) + 1) (items.length - 1) by
        omega]
    exact hnext

/-- An item that a letter can choose is in the window. -/
def Move.Within (items : List Item) (menuHeight : Nat) : Move → Prop
  | .hot i => i < maxChoice items menuHeight
  | _ => True

theorem Plain.go (h : Plain items menuHeight menuWidth s v) {m : Move} (hm : m.Within items menuHeight) :
    Plain items menuHeight menuWidth (go items menuHeight menuWidth s m) (v.step items menuHeight m) := by
  cases m with
  | up => exact h.up
  | down => exact h.down
  | ppage => exact h.pagesUp _
  | npage => exact h.pagesDown _
  | hot i => exact h.choose hm

theorem search_lt {c : Char} {scroll choice i : Nat} (h : search items menuHeight c scroll choice = some i) :
    i < maxChoice items menuHeight := by
  rw [search] at h
  split at h
  next => exact absurd h (by simp)
  next =>
    rcases Option.or_eq_some_iff.mp h with hfound | ⟨-, hfound⟩
    · have := List.mem_range'_1.mp (List.mem_of_find?_eq_some hfound)
      omega
    · exact List.mem_range.mp (List.mem_of_find?_eq_some hfound)

theorem move_within {scroll choice : Nat} {key : Key} {m : Move}
    (h : move items menuHeight scroll choice key = some m) : m.Within items menuHeight := by
  cases key with
  | char c =>
    rw [move] at h
    split at h
    next => exact Option.some.inj h ▸ trivial
    next =>
      split at h
      next => exact Option.some.inj h ▸ trivial
      next =>
        obtain ⟨i, hi, rfl⟩ := Option.map_eq_some_iff.mp h
        exact search_lt hi
  | up => exact Option.some.inj h ▸ trivial
  | down => exact Option.some.inj h ▸ trivial
  | ppage => exact Option.some.inj h ▸ trivial
  | npage => exact Option.some.inj h ▸ trivial
  | left => exact absurd h (by simp [move])
  | right => exact absurd h (by simp [move])
  | other => exact absurd h (by simp [move])

end Rows

section Results

variable {items : List Item} {menuHeight menuWidth : Nat} {s : Menu} {v : View}

/-- The window has the items from the first one of the view on, the chosen one and no other is printed as such,
and the arrows are there if there are items above and below. -/
structure Shows (items : List Item) (menuHeight menuWidth : Nat) (s : Menu) (v : View) : Prop where
  rows : s.rows = (listed items menuHeight menuWidth v.top).set s.choice (itemRow items menuWidth true v.cur)
  arrows : s.arrows = (decide (0 < v.top), decide (v.top + maxChoice items menuHeight < items.length))
  scroll : s.scroll = v.top
  choice : v.top + s.choice = v.cur
  button : s.button = v.button
  within : s.choice < maxChoice items menuHeight
  fits : v.top + maxChoice items menuHeight ≤ items.length

theorem printArrows_eq (items : List Item) (menuHeight : Nat) (s : Menu)
    (hfits : s.scroll + maxChoice items menuHeight ≤ items.length) :
    printArrows items menuHeight s = { s with arrows := (decide (0 < s.scroll),
      decide (s.scroll + maxChoice items menuHeight < items.length)) } := by
  have hmax : menuHeight < items.length ∧ s.scroll + menuHeight < items.length ↔
      s.scroll + maxChoice items menuHeight < items.length := by
    rw [maxChoice] at hfits ⊢
    omega
  rw [printArrows, decide_eq_decide.mpr hmax]

theorem Plain.shows (h : Plain items menuHeight menuWidth s v) :
    Shows items menuHeight menuWidth
      (printArrows items menuHeight (printItem items menuWidth (s.scroll + s.choice) s.choice true s)) v := by
  have hscroll := h.scroll
  rw [printArrows_eq _ _ _ (by rw [printItem, hscroll]; exact h.fits)]
  refine ⟨?_, ?_, hscroll, h.choice, h.button, h.within, h.fits⟩
  · dsimp only [printItem]
    rw [h.rows, hscroll, h.choice]
  · show (decide (0 < s.scroll), decide (s.scroll + maxChoice items menuHeight < items.length)) = _
    rw [hscroll]

theorem Shows.plain (h : Shows items menuHeight menuWidth s v) :
    Plain items menuHeight menuWidth (printItem items menuWidth (s.scroll + s.choice) s.choice false s) v := by
  refine ⟨?_, h.scroll, h.choice, h.button, h.within, h.fits⟩
  rw [printItem, h.rows, h.scroll]
  dsimp only
  rw [List.set_set, listed_set h.within]

theorem Shows.moved (h : Shows items menuHeight menuWidth s v) {m : Move} (hm : m.Within items menuHeight) :
    Shows items menuHeight menuWidth (moved items menuHeight menuWidth s m) (v.step items menuHeight m) :=
  (h.plain.go hm).shows

theorem Shows.run (h : Shows items menuHeight menuWidth s v) (keys : List Key) :
    (run items menuHeight menuWidth keys s).2 = (v.run items menuHeight keys).2 ∧
      Shows items menuHeight menuWidth (run items menuHeight menuWidth keys s).1 (v.run items menuHeight keys).1 := by
  induction keys generalizing s v with
  | nil => exact ⟨rfl, h⟩
  | cons key keys ih =>
    have hchoice : v.cur - v.top = s.choice := by
      have := h.choice
      omega
    rw [MenuBox.run, View.run, hchoice, h.scroll, h.choice, h.button]
    cases hmove : move items menuHeight v.top s.choice key with
    | some m =>
      have hmoved := h.moved (move_within hmove)
      dsimp only
      by_cases hesc : key = .char '\x1b'
      · rw [if_pos hesc, if_pos hesc]
        exact ⟨rfl, hmoved⟩
      · rw [if_neg hesc, if_neg hesc]
        exact ih hmoved
    | none =>
      have hbutton (b : Nat) : Shows items menuHeight menuWidth { s with scroll := v.top, button := b }
          { v with button := b } := ⟨h.rows, h.arrows, rfl, h.choice, rfl, h.within, h.fits⟩
      dsimp only
      split
      next => exact ih (hbutton _)
      next =>
        split
        next => exact ⟨rfl, hbutton 2⟩
        next =>
          split
          next => exact ⟨rfl, hbutton 0⟩
          next =>
            split
            next => exact ⟨rfl, h⟩
            next =>
              split
              next => exact ⟨rfl, h⟩
              next => exact ih h

theorem current_lt (hitems : items ≠ []) (tag : Str) : current items tag < items.length := by
  rw [current]
  cases hlast : ((List.range items.length).filter fun k => (item items k).tag = tag).getLast? with
  | none => exact List.length_pos_iff.mpr hitems
  | some k => exact List.mem_range.mp (List.mem_filter.mp (List.mem_of_getLast? hlast)).1

/-- The current item is in the window at first, and the window in the list. -/
theorem firstItem_fits (stored : Option Int) {choice : Nat} (hheight : 0 < menuHeight) (hchoice : choice < items.length) :
    firstItem items menuHeight stored choice ≤ choice ∧
      choice < firstItem items menuHeight stored choice + maxChoice items menuHeight ∧
      firstItem items menuHeight stored choice + maxChoice items menuHeight ≤ items.length := by
  have hmax := maxChoice_le items menuHeight
  have hpos : 0 < maxChoice items menuHeight := by
    rw [maxChoice]
    omega
  cases stored with
  | none =>
    rw [firstItem]
    split_ifs <;> omega
  | some scroll =>
    rw [firstItem]
    split_ifs <;> omega

theorem opened_shows (hitems : items ≠ []) (hheight : 0 < menuHeight) (menuWidth : Nat) (stored : Option Int)
    (tag : Str) :
    Shows items menuHeight menuWidth (opened items menuHeight menuWidth stored tag)
      ⟨firstItem items menuHeight stored (current items tag), current items tag, 0⟩ := by
  obtain ⟨hle, hlt, hfits⟩ := firstItem_fits stored hheight (current_lt hitems tag)
  have hmax := maxChoice_le items menuHeight
  rw [opened]
  generalize firstItem items menuHeight stored (current items tag) = top at hle hlt hfits ⊢
  generalize current items tag = cur at hle hlt ⊢
  rw [printArrows_eq _ _ _ hfits]
  refine ⟨?_, rfl, rfl, by dsimp only; omega, rfl, by dsimp only; omega, hfits⟩
  dsimp only
  have hrow : ∀ i, itemRow items menuWidth (decide (i = cur - top)) (top + i) =
      if top + i = top + (cur - top) then itemRow items menuWidth true cur
      else itemRow items menuWidth false (top + i) := by
    intro i
    by_cases hi : i = cur - top
    · rw [if_pos (by omega), decide_eq_true hi, show top + i = cur by omega]
    · rw [if_neg (by omega), decide_eq_false hi]
  have hset := set_rows (fun k => if k = top + (cur - top) then itemRow items menuWidth true cur
    else itemRow items menuWidth false k) top (r := List.replicate menuHeight blank) (n := maxChoice items menuHeight)
    (by rw [List.length_replicate]; exact hmax.1)
  simp only [hrow]
  have hlength := length_view (itemRow items menuWidth false) top (maxChoice items menuHeight)
  rw [hset, listed, List.set_append_left _ _ (by omega), view_select, List.drop_replicate]

/-- Whatever the keys, the menu shows what a cursor in the list does, and returns the item at the cursor. -/
theorem dialogMenu_shows (hitems : items ≠ []) (hheight : 0 < menuHeight) (menuWidth : Nat) (stored : Option Int)
    (tag : Str) (keys : List Key) :
    (dialogMenu items menuHeight menuWidth stored tag keys).2 = (View.run items menuHeight keys
        ⟨firstItem items menuHeight stored (current items tag), current items tag, 0⟩).2 ∧
      Shows items menuHeight menuWidth (dialogMenu items menuHeight menuWidth stored tag keys).1
        (View.run items menuHeight keys
          ⟨firstItem items menuHeight stored (current items tag), current items tag, 0⟩).1 :=
  (opened_shows hitems hheight menuWidth stored tag).run keys

theorem dialogMenu_shows_sample :
    (dialogMenu [⟨['a'], ['A']⟩, ⟨['b'], ['B']⟩, ⟨['c'], ['C']⟩] 2 10 none ['a'] [.down, .char '+', .char '\n']).2 =
      some (0, ['c', '\n']) :=
  (dialogMenu_shows (List.cons_ne_nil _ _) (by decide) 10 none ['a'] [.down, .char '+', .char '\n']).1.trans
    (by decide)

end Results

end T2SDE.MenuBox
