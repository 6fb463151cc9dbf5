import Mathlib.Algebra.Group.Nat.Defs
import Mathlib.Data.List.Nodup
import T2SDE.ConfigFile

namespace T2SDE.Config

open Text

/-- What the menu functions keep between their calls; the numbers are texts, as in the shell. -/
structure Menu where
  menuCounter : Nat
  menuThis : Str
  menuStack : Str
  menuBack : Str
  menuBackpos : Str
  spacer : Str
  tabspace : Str
  tabspaceList : Str
  dialog : Str
  data : Str

/-- The initial values in `Config` -/
def Menu.initial : Menu where
  menuCounter := 0
  menuThis := "0".toList
  menuStack := "x".toList
  menuBack := "-1".toList
  menuBackpos := "-1".toList
  spacer := []
  tabspace := "5".toList
  tabspaceList := []
  dialog := []
  data := []

def decimal : Int → Str
  | .ofNat n => digits n
  | .negSucc n => '-' :: digits (n + 1)

/-- `$(( $tabspace + $1 - 2 ))` -/
def widen (tabspace : Str) (indent : Int) : Str :=
  decimal (((number tabspace).getD 0 + indent - 2).bmod (2 ^ 64))

/-- `${x%% *}` -/
def firstWord (x : Str) : Str := x.takeWhile (· != ' ')

/-- `${x#* }` -/
def behindFirst (x : Str) : Str := if ' ' ∈ x then (x.dropWhile (· != ' ')).drop 1 else x

/-- `${x%??}` -/
def shorten (x : Str) : Str := if 2 ≤ x.length then x.dropLast.dropLast else x

/-- `%-${tabspace}s` -/
def leftAligned (tabspace word : Str) : Str := word.rightpad ((number tabspace).getD 0).natAbs ' '

section Calls

variable (menuCurrent : Str)

def blockBegin (indent : Int) (s : Menu) : Menu :=
  if menuCurrent = s.menuThis then
    { s with
      spacer := if s.tabspaceList ≠ [] then s.spacer ++ "  ".toList else s.spacer
      tabspaceList := s.tabspace ++ ' ' :: s.tabspaceList
      tabspace := widen s.tabspace indent }
  else s

def blockEnd (s : Menu) : Menu :=
  if menuCurrent = s.menuThis then
    { s with
      spacer := shorten s.spacer
      tabspace := firstWord s.tabspaceList
      tabspaceList := behindFirst s.tabspaceList }
  else s

/-- The entry of a menu in the one that is around it. -/
def menuEntry (item title : Str) (s : Menu) : Menu :=
  if menuCurrent = s.menuThis then
    { s with
      dialog := s.dialog ++ item ++ " '".toList ++ s.spacer ++ leftAligned s.tabspace "===>".toList ++
      ' ' :: title ++ "'\n".toList
      data := s.data ++ item ++ "\tmenu_current=".toList ++ digits s.menuCounter ++ ['\n'] }
  else s

/-- The entry of a menu in itself, which leads back. -/
def backEntry (item title : Str) (s : Menu) : Menu :=
  if menuCurrent = digits s.menuCounter then
    { s with
      dialog := s.dialog ++ item ++ " '===> ".toList ++ title ++ "'\n".toList
      data := s.data ++ item ++ "\tmenu_current=".toList ++ s.menuThis ++ ['\n'] }
  else s

/-- `menu_begin`, with whether the expert setting lets the menu be seen. -/
def menuBegin (item title : Str) (seen : Bool) (s : Menu) : Menu :=
  let s := { s with menuCounter := s.menuCounter + 1 }
  let s := if seen then backEntry menuCurrent item title (menuEntry menuCurrent item title s) else s
  let s := if menuCurrent = digits s.menuCounter then { s with menuBack := s.menuThis, menuBackpos := item } else s
  blockBegin menuCurrent 3 { s with
    menuStack := s.menuThis ++ ' ' :: s.menuStack
    menuThis := digits s.menuCounter }

def menuEnd (s : Menu) : Menu :=
  let s := blockEnd menuCurrent s
  { s with
    menuThis := firstWord s.menuStack
    menuStack := behindFirst s.menuStack }

end Calls

inductive MenuCall where
  | blockBegin (indent : Int)
  | blockEnd
  | menuBegin (item title : Str) (seen : Bool)
  | menuEnd

def MenuCall.opensMenu : MenuCall → Bool
  | .menuBegin _ _ _ => true
  | _ => false

def MenuCall.run (menuCurrent : Str) (s : Menu) : MenuCall → Menu
  | .blockBegin indent => Config.blockBegin menuCurrent indent s
  | .blockEnd => Config.blockEnd menuCurrent s
  | .menuBegin item title seen => Config.menuBegin menuCurrent item title seen s
  | .menuEnd => Config.menuEnd menuCurrent s

def runCalls (menuCurrent : Str) (calls : List MenuCall) (s : Menu) : Menu :=
  calls.foldl (fun s c => c.run menuCurrent s) s

/-- A begin call and the end call that belongs to it. -/
inductive Pair : MenuCall → MenuCall → Prop
  | block (indent : Int) : Pair (.blockBegin indent) .blockEnd
  | menu (item title : Str) (seen : Bool) : Pair (.menuBegin item title seen) .menuEnd

/-- Sequences in which every begin call has its end call. -/
inductive Nested : List MenuCall → Prop
  | nil : Nested []
  | pair {opening closing : MenuCall} {body rest : List MenuCall} :
  Pair opening closing → Nested body → Nested rest →
      Nested (opening :: (body ++ closing :: rest))

/-- What an end call restores. -/
def Restored (s t : Menu) : Prop :=
  t.menuThis = s.menuThis ∧ t.menuStack = s.menuStack ∧ t.spacer = s.spacer ∧ t.tabspace = s.tabspace ∧
    t.tabspaceList = s.tabspaceList

/-- The number of each menu, as its `menu_begin` sets it. -/
def numbers (menuCurrent : Str) : List MenuCall → Menu → List Str
  | [], _ => []
  | .menuBegin item title seen :: calls, s =>
    (menuBegin menuCurrent item title seen s).menuThis ::
    numbers menuCurrent calls (menuBegin menuCurrent item title seen s)
  | c :: calls, s => numbers menuCurrent calls (c.run menuCurrent s)

/-- The indentation is known from the list of the open blocks, and the first words of the lists are
single ones. -/
structure Ready (s : Menu) : Prop where
  menuThis : ' ' ∉ s.menuThis
  tabspace : ' ' ∉ s.tabspace
  blocks : ∃ entries : List Str, (∀ e ∈ entries, ' ' ∉ e) ∧
    s.tabspaceList = entries.flatMap (fun e => e ++ [' ']) ∧
    s.spacer.length ≤ 2 * (entries.length - 1) + 1

section Words

variable {w x : Str}

theorem firstWord_cons (hw : ' ' ∉ w) (x : Str) : firstWord (w ++ ' ' :: x) = w := by
  have hall : ∀ c ∈ w, (c != ' ') = true := fun c hc => by simpa using fun h : c = ' ' => hw (h ▸ hc)
  rw [firstWord, List.takeWhile_append_of_pos hall, List.takeWhile_cons_of_neg (by decide), List.append_nil]

theorem behindFirst_cons (hw : ' ' ∉ w) (x : Str) : behindFirst (w ++ ' ' :: x) = x := by
  have hall : ∀ c ∈ w, (c != ' ') = true := fun c hc => by simpa using fun h : c = ' ' => hw (h ▸ hc)
  rw [behindFirst, if_pos (by simp), List.dropWhile_append_of_pos hall,
    List.dropWhile_cons_of_neg (by decide)]
  rfl

theorem firstWord_free (x : Str) : ' ' ∉ firstWord x := by
  intro h
  have hkept : (' ' != ' ') = true :=
    List.all_eq_true.mp (List.all_takeWhile (p := (· != ' ')) (l := x)) ' ' h
  exact absurd hkept (by decide)

theorem shorten_append (x : Str) : shorten (x ++ "  ".toList) = x := by
  have htext : x ++ "  ".toList = x ++ [' '] ++ [' '] := by simp
  rw [shorten, htext, if_pos (by simp), List.dropLast_concat, List.dropLast_concat]

theorem shorten_short (h : x.length < 2) : shorten x = x := if_neg (by omega)

theorem length_shorten (x : Str) : (shorten x).length = if 2 ≤ x.length then x.length - 2 else x.length := by
  rw [shorten]
  split
  next => simp; omega
  next => rfl

theorem blank_counter (n : Nat) : ' ' ∉ digits n := fun h => absurd (digit_of_mem h) (by decide)

theorem blank_decimal (n : Int) : ' ' ∉ decimal n := by
  cases n with
  | ofNat n => exact blank_counter n
  | negSucc n =>
    intro h
    rcases List.mem_cons.mp h with h | h
    · exact absurd h (by decide)
    · exact blank_counter _ h

end Words

section Steps

variable (menuCurrent : Str) {s t : Menu}

theorem ready_initial (hthis : ' ' ∉ s.menuThis) (htab : ' ' ∉ s.tabspace) (hspacer : s.spacer = [])
    (hlist : s.tabspaceList = []) : Ready s :=
  ⟨hthis, htab, [], by simp, by simp [hlist], by simp [hspacer]⟩

theorem Ready.blockBegin (h : Ready s) (indent : Int) : Ready (blockBegin menuCurrent indent s) := by
  rw [Config.blockBegin]
  split
  next =>
    obtain ⟨entries, hentries, hlist, hlen⟩ := h.blocks
    refine ⟨h.menuThis, blank_decimal _, s.tabspace :: entries, ?_, ?_, ?_⟩
    · intro e he
      rcases List.mem_cons.mp he with rfl | he
      · exact h.tabspace
      · exact hentries e he
    · show s.tabspace ++ ' ' :: s.tabspaceList = _
      rw [hlist]
      simp
    · show (if s.tabspaceList ≠ [] then s.spacer ++ "  ".toList else s.spacer).length ≤
        2 * (entries.length + 1 - 1) + 1
      cases entries with
      | nil =>
        rw [hlist]
        exact hlen
      | cons e entries =>
        rw [if_pos (by rw [hlist]; simp), List.length_append]
        have htwo : "  ".toList.length = 2 := rfl
        simp only [List.length_cons] at hlen ⊢
        omega
  next => exact h

theorem Ready.blockEnd (h : Ready s) : Ready (blockEnd menuCurrent s) := by
  rw [Config.blockEnd]
  split
  next =>
    obtain ⟨entries, hentries, hlist, hlen⟩ := h.blocks
    refine ⟨h.menuThis, firstWord_free _, entries.tail, fun e he => hentries e (List.mem_of_mem_tail he),
      ?_, ?_⟩
    · show behindFirst s.tabspaceList = _
      rw [hlist]
      cases entries with
      | nil => rfl
      | cons e entries =>
        have htext : (e :: entries).flatMap (fun e => e ++ [' ']) = e ++ ' ' :: entries.flatMap fun e =>
          e ++ [' '] := by simp
        rw [htext, behindFirst_cons (hentries e List.mem_cons_self), List.tail_cons]
    · show (shorten s.spacer).length ≤ _
      rw [length_shorten, List.length_tail]
      split
      next => omega
      next => omega
  next => exact h

theorem menuEntry_frame (item title : Str) (s : Menu) :
    ∃ dialog data, menuEntry menuCurrent item title s = { s with dialog, data } := by
  rw [menuEntry]
  split
  next => exact ⟨_, _, rfl⟩
  next => exact ⟨s.dialog, s.data, rfl⟩

theorem backEntry_frame (item title : Str) (s : Menu) :
    ∃ dialog data, backEntry menuCurrent item title s = { s with dialog, data } := by
  rw [backEntry]
  split
  next => exact ⟨_, _, rfl⟩
  next => exact ⟨s.dialog, s.data, rfl⟩

/-- Up to what it shows, `menu_begin` pushes the menu and begins a block in the new one. -/
theorem menuBegin_eq (item title : Str) (seen : Bool) (s : Menu) :
    ∃ menuBack menuBackpos dialog data, menuBegin menuCurrent item title seen s = blockBegin menuCurrent 3
      { s with
        menuCounter := s.menuCounter + 1
        menuThis := digits (s.menuCounter + 1)
        menuStack := s.menuThis ++ ' ' :: s.menuStack
        menuBack, menuBackpos, dialog, data } := by
  obtain ⟨dialog, data, hentry⟩ :=
    menuEntry_frame menuCurrent item title { s with menuCounter := s.menuCounter + 1 }
  obtain ⟨dialog', data', hback⟩ := backEntry_frame menuCurrent item title
    { s with menuCounter := s.menuCounter + 1, dialog, data }
  rw [menuBegin, hentry, hback]
  cases seen with
  | true =>
    by_cases hcurrent : menuCurrent = digits (s.menuCounter + 1)
    · exact ⟨s.menuThis, item, dialog', data', by simp [hcurrent]⟩
    · exact ⟨s.menuBack, s.menuBackpos, dialog', data', by simp [hcurrent]⟩
  | false =>
    by_cases hcurrent : menuCurrent = digits (s.menuCounter + 1)
    · exact ⟨s.menuThis, item, s.dialog, s.data, by simp [hcurrent]⟩
    · exact ⟨s.menuBack, s.menuBackpos, s.dialog, s.data, by simp [hcurrent]⟩

theorem Ready.menuBegin (h : Ready s) (item title : Str) (seen : Bool) :
    Ready (menuBegin menuCurrent item title seen s) := by
  obtain ⟨menuBack, menuBackpos, dialog, data, heq⟩ := menuBegin_eq menuCurrent item title seen s
  rw [heq]
  refine Ready.blockBegin menuCurrent ?_ 3
  exact ⟨blank_counter _, h.tabspace, h.blocks⟩

theorem Ready.menuEnd (h : Ready s) : Ready (menuEnd menuCurrent s) := by
  have hend := h.blockEnd menuCurrent
  exact ⟨firstWord_free _, hend.tabspace, hend.blocks⟩

theorem Ready.run (h : Ready s) (calls : List MenuCall) : Ready (runCalls menuCurrent calls s) := by
  induction calls generalizing s with
  | nil => exact h
  | cons c calls ih =>
    cases c with
    | blockBegin indent => exact ih (h.blockBegin menuCurrent indent)
    | blockEnd => exact ih (h.blockEnd menuCurrent)
    | menuBegin item title seen => exact ih (h.menuBegin menuCurrent item title seen)
    | menuEnd => exact ih (h.menuEnd menuCurrent)

theorem Restored.refl (s : Menu) : Restored s s := ⟨rfl, rfl, rfl, rfl, rfl⟩

theorem Restored.trans {u : Menu} (h : Restored s t) (h' : Restored t u) : Restored s u :=
  ⟨h'.1.trans h.1, h'.2.1.trans h.2.1, h'.2.2.1.trans h.2.2.1, h'.2.2.2.1.trans h.2.2.2.1,
    h'.2.2.2.2.trans h.2.2.2.2⟩

/-- The end of a block undoes its begin, whatever has happened in between that restored its state. -/
theorem blockEnd_restores (h : Ready s) (indent : Int) (ht : Restored (blockBegin menuCurrent indent s) t) :
    Restored s (blockEnd menuCurrent t) := by
  obtain ⟨hthis, hstack, hspacer, htab, hlist⟩ := ht
  by_cases hcurrent : menuCurrent = s.menuThis
  · have hbegin : blockBegin menuCurrent indent s = { s with
        spacer := if s.tabspaceList ≠ [] then s.spacer ++ "  ".toList else s.spacer
        tabspaceList := s.tabspace ++ ' ' :: s.tabspaceList
        tabspace := widen s.tabspace indent } := if_pos hcurrent
    rw [hbegin] at hthis hstack hspacer htab hlist
    have hend : blockEnd menuCurrent t = { t with
        spacer := shorten t.spacer
        tabspace := firstWord t.tabspaceList
        tabspaceList := behindFirst t.tabspaceList } := if_pos (hcurrent.trans hthis.symm)
    rw [hend]
    refine ⟨hthis, hstack, ?_, ?_, ?_⟩
    · show shorten t.spacer = s.spacer
      rw [hspacer]
      dsimp only
      split
      next => exact shorten_append s.spacer
      next hempty =>
        obtain ⟨entries, -, hentries, hlen⟩ := h.blocks
        have hnone : entries = [] := by
          cases entries with
          | nil => rfl
          | cons e entries => exact absurd (by rw [hentries]; simp) hempty
        rw [hnone] at hlen
        exact shorten_short (by simpa using Nat.lt_succ_of_le hlen)
    · show firstWord t.tabspaceList = s.tabspace
      rw [hlist, firstWord_cons h.tabspace]
    · show behindFirst t.tabspaceList = s.tabspaceList
      rw [hlist, behindFirst_cons h.tabspace]
  · have hbegin : blockBegin menuCurrent indent s = s := if_neg hcurrent
    rw [hbegin] at hthis hstack hspacer htab hlist
    have hend : blockEnd menuCurrent t = t := if_neg fun hc => hcurrent (hc.trans hthis)
    rw [hend]
    exact ⟨hthis, hstack, hspacer, htab, hlist⟩

theorem pair_restores {opening closing : MenuCall} (hp : Pair opening closing) (h : Ready s)
    (ht : Restored (opening.run menuCurrent s) t) : Restored s (closing.run menuCurrent t) := by
  cases hp with
  | block indent => exact blockEnd_restores menuCurrent h indent ht
  | menu item title seen =>
    obtain ⟨menuBack, menuBackpos, dialog, data, heq⟩ := menuBegin_eq menuCurrent item title seen s
    rw [MenuCall.run, heq] at ht
    have hpushed : Ready { s with
        menuCounter := s.menuCounter + 1
        menuThis := digits (s.menuCounter + 1)
        menuStack := s.menuThis ++ ' ' :: s.menuStack
        menuBack, menuBackpos, dialog, data } := ⟨blank_counter _, h.tabspace, h.blocks⟩
    obtain ⟨-, hstack, hspacer, htab, hlist⟩ := blockEnd_restores menuCurrent hpushed 3 ht
    refine ⟨?_, ?_, hspacer, htab, hlist⟩
    · show firstWord (blockEnd menuCurrent t).menuStack = s.menuThis
      rw [hstack, firstWord_cons h.menuThis]
    · show behindFirst (blockEnd menuCurrent t).menuStack = s.menuStack
      rw [hstack, behindFirst_cons h.menuThis]

theorem runCalls_append (calls calls' : List MenuCall) (s : Menu) :
    runCalls menuCurrent (calls ++ calls') s = runCalls menuCurrent calls' (runCalls menuCurrent calls s) :=
  List.foldl_append

theorem Nested.restores {calls : List MenuCall} (hcalls : Nested calls) (h : Ready s) :
    Restored s (runCalls menuCurrent calls s) := by
  induction hcalls generalizing s with
  | nil => exact Restored.refl s
  | @pair opening closing body rest hp _ _ ihbody ihrest =>
    have hopened : Ready (opening.run menuCurrent s) := h.run menuCurrent [opening]
    have hclosed := pair_restores menuCurrent hp h (ihbody hopened)
    have hready :
      Ready (closing.run menuCurrent (runCalls menuCurrent body (opening.run menuCurrent s))) := by
      have hall := h.run menuCurrent (opening :: (body ++ [closing]))
      rwa [← List.cons_append, runCalls_append] at hall
    have hrun : runCalls menuCurrent (opening :: (body ++ closing :: rest)) s =
        runCalls menuCurrent rest (closing.run menuCurrent
          (runCalls menuCurrent body (opening.run menuCurrent s))) := by
      rw [← List.cons_append, runCalls_append]
      rfl
    rw [hrun]
    exact hclosed.trans (ihrest hready)

/-- The end of a pair with a nested body, after any calls. -/
theorem restored_at_end {opening closing : MenuCall} {body : List MenuCall} (hp : Pair opening closing)
    (hbody : Nested body)
    (h : Ready s) (before : List MenuCall) :
    Restored (runCalls menuCurrent before s) (runCalls menuCurrent (before ++ opening :: body ++
    [closing]) s) := by
  have hready : Ready (runCalls menuCurrent before s) := h.run menuCurrent before
  have hopened : Ready (opening.run menuCurrent (runCalls menuCurrent before s)) :=
    hready.run menuCurrent [opening]
  rw [List.append_assoc, runCalls_append, runCalls_append]
  exact pair_restores menuCurrent hp hready (hbody.restores menuCurrent hopened)

theorem menuCounter_run (c : MenuCall) (s : Menu) :
    (c.run menuCurrent s).menuCounter = s.menuCounter + if c.opensMenu then 1 else 0 := by
  have hblock : ∀ indent t, (blockBegin menuCurrent indent t).menuCounter = t.menuCounter := by
    intro indent t
    rw [blockBegin]
    split
    next => rfl
    next => rfl
  have hend : ∀ t, (blockEnd menuCurrent t).menuCounter = t.menuCounter := by
    intro t
    rw [blockEnd]
    split
    next => rfl
    next => rfl
  cases c with
  | blockBegin indent => exact hblock indent s
  | blockEnd => exact hend s
  | menuBegin item title seen =>
    obtain ⟨menuBack, menuBackpos, dialog, data, heq⟩ := menuBegin_eq menuCurrent item title seen s
    rw [MenuCall.run, heq, hblock]
    rfl
  | menuEnd => exact hend s

theorem menuThis_menuBegin (item title : Str) (seen : Bool) (s : Menu) :
    (menuBegin menuCurrent item title seen s).menuThis = digits (s.menuCounter + 1) := by
  obtain ⟨menuBack, menuBackpos, dialog, data, heq⟩ := menuBegin_eq menuCurrent item title seen s
  rw [heq, blockBegin]
  split
  next => rfl
  next => rfl

/-- The menus are counted in the order of their `menu_begin`. -/
theorem numbers_eq (calls : List MenuCall) (s : Menu) :
    numbers menuCurrent calls s =
    (List.range' (s.menuCounter + 1) (calls.countP MenuCall.opensMenu)).map digits := by
  induction calls generalizing s with
  | nil => rfl
  | cons c calls ih =>
    have hcounter := menuCounter_run menuCurrent c s
    cases c with
    | menuBegin item title seen =>
      have htail := ih (menuBegin menuCurrent item title seen s)
      rw [MenuCall.run] at hcounter
      rw [numbers, htail, menuThis_menuBegin, hcounter, List.countP_cons_of_pos rfl, List.range'_succ]
      rfl
    | blockBegin indent =>
      have htail := ih (blockBegin menuCurrent indent s)
      rw [MenuCall.run] at hcounter
      rw [hcounter] at htail
      exact htail
    | blockEnd =>
      have htail := ih (blockEnd menuCurrent s)
      rw [MenuCall.run] at hcounter
      rw [hcounter] at htail
      exact htail
    | menuEnd =>
      have htail := ih (menuEnd menuCurrent s)
      rw [MenuCall.run] at hcounter
      rw [hcounter] at htail
      exact htail

end Steps

/-- Every end call of a nested sequence has a begin call with a nested sequence in between. -/
theorem Nested.matched {calls : List MenuCall} (h : Nested calls) {front back : List MenuCall}
    {closing : MenuCall}
    (heq : calls = front ++ closing :: back) (hend : closing = .blockEnd ∨ closing = .menuEnd) :
    ∃ before opening body, front = before ++ opening :: body ∧ Pair opening closing ∧ Nested body := by
  induction h generalizing front back with
  | nil => exact absurd heq (by simp)
  | @pair opening last body rest hp hbody _ ihbody ihrest =>
    cases front with
    | nil =>
      obtain ⟨rfl, -⟩ := List.cons.inj heq
      cases hp with
      | block indent => exact absurd hend (by simp)
      | menu item title seen => exact absurd hend (by simp)
    | cons first front =>
      obtain ⟨rfl, htail⟩ := List.cons.inj heq
      rcases List.append_eq_append_iff.mp htail with ⟨between, rfl, hrest⟩ | ⟨between, rfl, hback⟩
      · -- the end call is the last of the pair, or behind it
        cases between with
        | nil =>
          obtain ⟨rfl, -⟩ := List.cons.inj hrest
          exact ⟨[], opening, body, by simp, hp, hbody⟩
        | cons c between =>
          obtain ⟨rfl, hbehind⟩ := List.cons.inj hrest
          obtain ⟨before, opening', body', rfl, hp', hbody'⟩ := ihrest hbehind
          exact ⟨opening :: (body ++ last :: before), opening', body', by simp, hp', hbody'⟩
      · cases between with
        | nil =>
          obtain ⟨rfl, -⟩ := List.cons.inj hback
          rw [List.append_nil] at hbody
          exact ⟨[], opening, front, rfl, hp, hbody⟩
        | cons c between =>
          obtain ⟨rfl, -⟩ := List.cons.inj hback
          obtain ⟨before, opening', body', rfl, hp', hbody'⟩ := ihbody rfl
          exact ⟨opening :: before, opening', body', rfl, hp', hbody'⟩

/-- After each end call the menu and the indentation are what they were before its begin call,
whichever menu is shown, and the menus have different numbers in the order of their begin calls. -/
theorem nested_restored (menuCurrent : Str) {s : Menu} (hthis : ' ' ∉ s.menuThis) (htab : ' ' ∉ s.tabspace)
    (hspacer : s.spacer = []) (hlist : s.tabspaceList = []) {calls : List MenuCall} (hcalls : Nested calls) :
    (∀ front closing back, calls = front ++ closing :: back → closing = .blockEnd ∨ closing = .menuEnd →
      ∃ before opening body, front = before ++ opening :: body ∧ Pair opening closing ∧ Nested body ∧
        Restored (runCalls menuCurrent before s) (runCalls menuCurrent (front ++ [closing]) s)) ∧
      numbers menuCurrent calls s =
      (List.range' (s.menuCounter + 1) (calls.countP MenuCall.opensMenu)).map digits ∧
      (numbers menuCurrent calls s).Nodup := by
  have h : Ready s := ready_initial hthis htab hspacer hlist
  refine ⟨fun front closing back heq hend => ?_, numbers_eq menuCurrent calls s, ?_⟩
  · obtain ⟨before, opening, body, rfl, hp, hbody⟩ := hcalls.matched heq hend
    exact ⟨before, opening, body, rfl, hp, hbody, restored_at_end menuCurrent hp hbody h before⟩
  · rw [numbers_eq]
    exact List.Nodup.map (fun m n h => digits_inj h) (List.nodup_range' 1)

/-- A menu with a block in it, in front of another one. -/
def sampleCalls : List MenuCall := [
  .menuBegin "KERNEL".toList "Kernel options".toList true, .blockBegin 2, .blockEnd, .menuEnd,
  .menuBegin "FLAGS".toList "Compiler flags".toList true, .menuEnd]

theorem sampleCalls_nested : Nested sampleCalls :=
  .pair (.menu _ _ _) (.pair (.block 2) .nil .nil) (.pair (.menu _ _ _) .nil .nil)

theorem nested_restored_sample :
    (∀ front closing back, sampleCalls = front ++ closing :: back → closing = .blockEnd ∨ closing = .menuEnd →
      ∃ before opening body, front = before ++ opening :: body ∧ Pair opening closing ∧ Nested body ∧
        Restored (runCalls "1".toList before .initial) (runCalls "1".toList (front ++ [closing]) .initial)) ∧
      numbers "1".toList sampleCalls .initial = ["1".toList, "2".toList] ∧
      (numbers "1".toList sampleCalls .initial).Nodup :=
  nested_restored "1".toList (s := .initial) (by decide) (by decide) rfl rfl sampleCalls_nested

end T2SDE.Config
