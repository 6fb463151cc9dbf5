import Mathlib.Data.List.TakeDrop
import T2SDE.Inputbox
import T2SDE.Lib.CString
import T2SDE.Lib.ScrolledRows

namespace T2SDE.InputboxKeys

open Text CString ScrolledRows Config

section Program

inductive Key
  | char (c : Char)
  | up
  | down
  | left
  | right
  | backspace
  | other

/-- Where the keys go: `button` is -1, 0 or 1. -/
inductive Button
  | field
  | ok
  | cancel
  deriving DecidableEq

def Button.back : Button → Button
  | field => cancel
  | ok => field
  | cancel => ok

def Button.on : Button → Button
  | field => cancel
  | ok => cancel
  | cancel => field

def isprint (c : Char) : Bool := 32 ≤ c.toNat && c.toNat ≤ 126

/-- What the loop of `dialog_inputbox` does with its field; none is an access outside of the buffer. -/
structure Editor (σ : Type) where
  button : σ → Button
  focus : Button → σ → σ
  text : σ → Str
  erase : σ → Option σ
  type : Char → σ → Option σ

variable {σ : Type}

/-- The switch for the field; other keys go on to the buttons. -/
def Editor.edit (e : Editor σ) (s : σ) : Key → Option (Option σ)
  | .left | .right => some (some s)
  | .backspace => some (e.erase s)
  | .char c => if c = '\x7f' then some (e.erase s) else if isprint c then some (e.type c s) else none
  | .up | .down | .other => none

inductive Press
  | ends (answer : Answer)
  | moves (button : Button)

/-- The switch for the buttons. -/
def press (button : Button) (text : Str) : Key → Press
  | .up | .left => .moves button.back
  | .down | .right => .moves button.on
  | .char c =>
    if c ∈ ['O', 'o'] then .ends (.ok text)
    else if c = '\t' then .moves button.on
    else if c ∈ [' ', '\n'] then .ends (if button = .cancel then .cancel else .ok text)
    else if c ∈ ['X', 'x', '\x1b'] then .ends .escape
    else .moves button
  | .backspace | .other => .moves button

def Editor.run (e : Editor σ) : List Key → σ → Option (σ × Option Answer)
  | [], s => some (s, none)
  | key :: keys, s =>
    match (if e.button s = .field then e.edit s key else none) with
    | some edited => edited.bind (run e keys)
    | none =>
      match press (e.button s) (e.text s) key with
      | .ends answer => some (s, some answer)
      | .moves button => run e keys (e.focus button s)

/-- The variables of `dialog_inputbox`, with `dialog_input_result` and the row of the field. -/
structure Field where
  instr : Str
  inputX : Nat
  scroll : Nat
  button : Button
  row : Str

def store (mem : Str) (p : Nat) (c : Char) : Option Str := if p < mem.length then some (mem.set p c) else none

variable (boxWidth : Nat)

/-- Characters are printed from the start of the field on. -/
def printed (f : Nat → Char) (scroll n : Nat) (row : Str) : Str :=
  (List.range n).foldl (fun row i => row.set i (f (scroll + i))) row

def typed (c : Char) (s : Field) : Option Field :=
  if s.scroll + s.inputX < maxLen then
    (store s.instr (s.scroll + s.inputX) c).bind fun instr =>
      (store instr (s.scroll + s.inputX + 1) nul).map fun instr =>
        if s.inputX = boxWidth - 1 then
          { s with instr, scroll := s.scroll + 1,
                   row := printed (CString.char instr) (s.scroll + 1) (boxWidth - 1) s.row }
        else { s with instr, inputX := s.inputX + 1, row := s.row.set s.inputX c }
  else some s

/-- The field when the cursor is at its start: the text in front of it is shown. -/
def shifted (s : Field) : Field :=
  let scroll := if s.scroll < boxWidth - 1 then 0 else s.scroll - (boxWidth - 1)
  { s with scroll, inputX := (strAt s.instr 0).length - scroll,
           row := printed (fun k => if CString.char s.instr k = nul then ' ' else CString.char s.instr k) scroll
                    boxWidth s.row }

def erased (s : Field) : Option Field :=
  if 0 < s.inputX ∨ 0 < s.scroll then
    let s := if s.inputX = 0 then shifted boxWidth s else { s with inputX := s.inputX - 1 }
    (store s.instr (s.scroll + s.inputX) nul).map fun instr => { s with instr, row := s.row.set s.inputX ' ' }
  else some s

/-- The dialog when it waits for the first key; the buffer is one of zeros before. -/
def opened (init : Str) : Field :=
  let instr := init ++ List.replicate (maxLen + 1 - init.length) nul
  let row := List.replicate boxWidth ' '
  if boxWidth ≤ init.length then
    ⟨instr, boxWidth - 1, init.length - boxWidth + 1, .field,
      printed (CString.char instr) (init.length - boxWidth + 1) (boxWidth - 1) row⟩
  else ⟨instr, init.length, 0, .field, printed (CString.char instr) 0 init.length row⟩

end Program

section Purpose

/-- A line that is edited at its end, with how much of it is to the left of the field. -/
structure Line where
  text : Str
  scroll : Nat
  button : Button

variable (boxWidth : Nat)

def Line.type (c : Char) (l : Line) : Line :=
  if l.text.length < maxLen then
    { l with text := l.text ++ [c], scroll := if l.text.length - l.scroll = boxWidth - 1 then l.scroll + 1 else l.scroll }
  else l

/-- With the whole text to the left of the field nothing is erased: the text is just moved into the field. -/
def Line.erase (l : Line) : Line :=
  if l.scroll = l.text.length then { l with scroll := l.scroll - (boxWidth - 1) } else { l with text := l.text.dropLast }

/-- The cursor is in the field. -/
def Line.start (init : Str) : Line := ⟨init, init.length - (boxWidth - 1), .field⟩

end Purpose

section Simulation

variable {τ : Type} {e : Editor σ} {e' : Editor τ} {R : σ → τ → Prop}

/-- Two editors that agree about the text, whatever is typed. -/
structure Simulates (e : Editor σ) (e' : Editor τ) (R : σ → τ → Prop) : Prop where
  button : ∀ {s t}, R s t → e.button s = e'.button t
  text : ∀ {s t}, R s t → e.text s = e'.text t
  focus : ∀ {s t}, R s t → ∀ b, R (e.focus b s) (e'.focus b t)
  erase : ∀ {s t}, R s t → ∃ s' t', e.erase s = some s' ∧ e'.erase t = some t' ∧ R s' t'
  type : ∀ {s t}, R s t → ∀ c, isprint c = true → ∃ s' t', e.type c s = some s' ∧ e'.type c t = some t' ∧ R s' t'

theorem Simulates.edit (h : Simulates e e' R) {s : σ} {t : τ} (hR : R s t) (key : Key) :
    (e.edit s key = none ∧ e'.edit t key = none) ∨
      ∃ s' t', e.edit s key = some (some s') ∧ e'.edit t key = some (some t') ∧ R s' t' := by
  have herase : ∃ s' t', some (e.erase s) = some (some s') ∧ some (e'.erase t) = some (some t') ∧ R s' t' := by
    obtain ⟨s', t', hs, ht, hR'⟩ := h.erase hR
    exact ⟨s', t', congrArg some hs, congrArg some ht, hR'⟩
  cases key with
  | left => exact .inr ⟨s, t, rfl, rfl, hR⟩
  | right => exact .inr ⟨s, t, rfl, rfl, hR⟩
  | up => exact .inl ⟨rfl, rfl⟩
  | down => exact .inl ⟨rfl, rfl⟩
  | other => exact .inl ⟨rfl, rfl⟩
  | backspace => exact .inr herase
  | char c =>
    rw [Editor.edit, Editor.edit]
    by_cases hdel : c = '\x7f'
    · rw [if_pos hdel, if_pos hdel]
      exact .inr herase
    · rw [if_neg hdel, if_neg hdel]
      by_cases hprint : isprint c = true
      · obtain ⟨s', t', hs, ht, hR'⟩ := h.type hR c hprint
        rw [if_pos hprint, if_pos hprint]
        exact .inr ⟨s', t', congrArg some hs, congrArg some ht, hR'⟩
      · rw [if_neg hprint, if_neg hprint]
        exact .inl ⟨rfl, rfl⟩

theorem Simulates.run (h : Simulates e e' R) {s : σ} {t : τ} (hR : R s t) (keys : List Key) :
    ∃ s' t' answer, e.run keys s = some (s', answer) ∧ e'.run keys t = some (t', answer) ∧ R s' t' := by
  induction keys generalizing s t with
  | nil => exact ⟨s, t, none, rfl, rfl, hR⟩
  | cons key keys ih =>
    have hpress : ∃ s' t' answer,
        (match press (e'.button t) (e'.text t) key with
          | .ends answer => some (s, some answer)
          | .moves button => e.run keys (e.focus button s)) = some (s', answer) ∧
        (match press (e'.button t) (e'.text t) key with
          | .ends answer => some (t, some answer)
          | .moves button => e'.run keys (e'.focus button t)) = some (t', answer) ∧ R s' t' := by
      cases press (e'.button t) (e'.text t) key with
      | ends answer => exact ⟨s, t, some answer, rfl, rfl, hR⟩
      | moves button => exact ih (h.focus hR button)
    rw [Editor.run, Editor.run, h.button hR, h.text hR]
    by_cases hfield : e'.button t = .field
    · rw [if_pos hfield, if_pos hfield]
      rcases h.edit hR key with ⟨hs, ht⟩ | ⟨s', t', hs, ht, hR'⟩
      · rw [hs, ht]
        exact hpress
      · rw [hs, ht]
        exact ih hR'
    · rw [if_neg hfield, if_neg hfield]
      exact hpress

end Simulation

section Results

variable {boxWidth : Nat} {s : Field} {l : Line} {c d : Char} {t : Str} {n top : Nat}

theorem set_end (t : Str) (d c : Char) (hn : 0 < n) :
    (t ++ List.replicate n d).set t.length c = (t ++ [c]) ++ List.replicate (n - 1) d := by
  obtain ⟨m, rfl⟩ : ∃ m, n = m + 1 := ⟨n - 1, by omega⟩
  rw [List.set_append_right _ _ (Nat.le_refl _), Nat.sub_self, List.replicate_succ, List.set_cons_zero,
    List.append_assoc, List.singleton_append, Nat.add_sub_cancel]

theorem set_end_same (t : Str) (d : Char) (hn : 0 < n) :
    (t ++ List.replicate n d).set t.length d = t ++ List.replicate n d := by
  rw [set_end t d d hn, List.append_assoc, List.singleton_append, ← List.replicate_succ, Nat.sub_add_cancel hn]

/-- The text with its last character replaced by what is behind it. -/
theorem set_last (d : Char) (ht : t ≠ []) :
    (t ++ List.replicate n d).set (t.length - 1) d = t.dropLast ++ List.replicate (n + 1) d := by
  cases t using List.reverseRecOn with
  | nil => exact absurd rfl ht
  | append_singleton u a =>
    rw [List.length_append, List.length_singleton, Nat.add_sub_cancel, List.dropLast_concat, List.append_assoc,
      List.set_append_right _ _ (Nat.le_refl _), Nat.sub_self, List.singleton_append, List.set_cons_zero,
      List.replicate_succ]

theorem printed_eq (f : Nat → Char) (scroll : Nat) {row : Str} (hn : n ≤ row.length) :
    printed f scroll n row = view f scroll n ++ row.drop n := set_rows f scroll hn

theorem char_text (rest : Str) {k : Nat} (hk : k < t.length) : CString.char (t ++ rest) k = t[k] := by
  rw [CString.char, List.getD_eq_getElem?_getD, List.getElem?_append_left hk, List.getElem?_eq_getElem hk,
    Option.getD_some]

theorem char_behind {k : Nat} (hk : t.length ≤ k) : CString.char (t ++ List.replicate n nul) k = nul := by
  rw [CString.char, List.getD_eq_getElem?_getD, List.getElem?_append_right hk]
  cases h : (List.replicate n nul)[k - t.length]? with
  | none => rfl
  | some d => exact List.eq_of_mem_replicate (List.mem_of_getElem? h)

theorem view_text (rest : Str) (hn : top + n = t.length) : view (CString.char (t ++ rest)) top n = t.drop top := by
  refine List.ext_getElem (by rw [length_view, List.length_drop]; omega) fun i hi hi' => ?_
  rw [length_view] at hi
  simp only [view, List.getElem_map, List.getElem_range, List.getElem_drop]
  exact char_text rest (by omega)

/-- The end of the text with blanks behind it. -/
theorem view_blanks {m : Nat} (hnul : nul ∉ t) (htop : top ≤ t.length) (hn : t.length - top ≤ n) :
    view (fun k => if CString.char (t ++ List.replicate m nul) k = nul then ' '
        else CString.char (t ++ List.replicate m nul) k) top n =
      t.drop top ++ List.replicate (n - (t.length - top)) ' ' := by
  refine List.ext_getElem ?_ fun i hi hi' => ?_
  · rw [length_view, List.length_append, List.length_drop, List.length_replicate]
    omega
  · simp only [view, List.getElem_map, List.getElem_range]
    by_cases hlt : top + i < t.length
    · have hne : t[top + i] ≠ nul := fun heq => hnul (heq ▸ List.getElem_mem hlt)
      rw [char_text _ hlt, if_neg hne, List.getElem_append_left (by rw [List.length_drop]; omega), List.getElem_drop]
    · rw [char_behind (by omega), if_pos rfl, List.getElem_append_right (by rw [List.length_drop]; omega),
        List.getElem_replicate]

/-- The buffer has the text with zeros behind it, and the field its end with blanks behind it. -/
structure Holds (boxWidth : Nat) (s : Field) (l : Line) : Prop where
  instr : s.instr = l.text ++ List.replicate (maxLen + 1 - l.text.length) nul
  chars : nul ∉ l.text
  short : l.text.length ≤ maxLen
  scroll : s.scroll = l.scroll
  cursor : l.scroll + s.inputX = l.text.length
  within : s.inputX < boxWidth
  row : s.row = l.text.drop l.scroll ++ List.replicate (boxWidth - s.inputX) ' '
  button : s.button = l.button

theorem Holds.length_row (h : Holds boxWidth s l) : s.row.length = boxWidth := by
  have hcursor := h.cursor
  have hwithin := h.within
  rw [h.row, List.length_append, List.length_drop, List.length_replicate]
  omega

theorem Holds.length_instr (h : Holds boxWidth s l) : s.instr.length = maxLen + 1 := by
  have hshort := h.short
  rw [h.instr, List.length_append, List.length_replicate]
  omega

theorem Holds.strAt (h : Holds boxWidth s l) : strAt s.instr 0 = l.text := by
  have hshort := h.short
  have hbehind := strAt_of [] (List.replicate (maxLen - l.text.length) nul) h.chars
  rw [List.nil_append, ← List.replicate_succ, show maxLen - l.text.length + 1 = maxLen + 1 - l.text.length by omega,
    ← h.instr] at hbehind
  exact hbehind

theorem Holds.typed (h : Holds boxWidth s l) (hc : c ≠ nul) :
    ∃ s', typed boxWidth c s = some s' ∧ Holds boxWidth s' (l.type boxWidth c) := by
  have hcursor := h.cursor
  have hwithin := h.within
  have hshort := h.short
  have hlength := h.length_instr
  have hrow := h.length_row
  rw [InputboxKeys.typed, Line.type, h.scroll, hcursor]
  by_cases hroom : l.text.length < maxLen
  · have hset : s.instr.set l.text.length c =
        (l.text ++ [c]) ++ List.replicate (maxLen + 1 - (l.text ++ [c]).length) nul := by
      rw [h.instr, set_end _ _ _ (by omega), List.length_append, List.length_singleton, Nat.sub_sub]
    have hend : (s.instr.set l.text.length c).set (l.text.length + 1) nul =
        (l.text ++ [c]) ++ List.replicate (maxLen + 1 - (l.text ++ [c]).length) nul := by
      rw [hset, ← List.length_singleton (a := c), ← List.length_append]
      exact set_end_same _ _ (by rw [List.length_append, List.length_singleton]; omega)
    have hchars : nul ∉ l.text ++ [c] := by
      rw [List.mem_append, List.mem_singleton, not_or]
      exact ⟨h.chars, hc.symm⟩
    have hdrop : (l.text ++ [c]).drop l.scroll = l.text.drop l.scroll ++ [c] :=
      List.drop_append_of_le_length (by omega)
    rw [if_pos hroom, if_pos hroom, store, if_pos (by omega), Option.bind_some, store,
      if_pos (by rw [List.length_set]; omega), Option.map_some, hend]
    refine ⟨_, rfl, ?_⟩
    by_cases hfull : s.inputX = boxWidth - 1
    · rw [if_pos hfull, if_pos (by omega)]
      refine ⟨rfl, hchars, by rw [List.length_append, List.length_singleton]; omega, rfl,
        by rw [List.length_append, List.length_singleton]; dsimp only; omega, hwithin, ?_, h.button⟩
      have htail : s.row.drop (boxWidth - 1) = List.replicate (boxWidth - s.inputX) ' ' := by
        rw [h.row]
        exact List.drop_left' (by rw [List.length_drop]; omega)
      dsimp only
      rw [printed_eq _ _ (by omega), view_text _ (by rw [List.length_append, List.length_singleton]; omega),
        htail]
    · rw [if_neg hfull, if_neg (by omega)]
      refine ⟨rfl, hchars, by rw [List.length_append, List.length_singleton]; omega, rfl,
        by rw [List.length_append, List.length_singleton]; dsimp only; omega, by dsimp only; omega, ?_, h.button⟩
      have hx : s.inputX = (l.text.drop l.scroll).length := by
        rw [List.length_drop]
        omega
      dsimp only
      rw [h.row, hdrop, hx, set_end _ _ _ (by omega), Nat.sub_sub]
  · rw [if_neg hroom, if_neg hroom]
    exact ⟨s, rfl, h⟩

theorem Holds.shifted (h : Holds boxWidth s l) (hx : s.inputX = 0) :
    Holds boxWidth (shifted boxWidth s) { l with scroll := l.scroll - (boxWidth - 1) } := by
  have hcursor := h.cursor
  have hwithin := h.within
  have hscroll : (if s.scroll < boxWidth - 1 then 0 else s.scroll - (boxWidth - 1)) = l.scroll - (boxWidth - 1) := by
    rw [h.scroll]
    split <;> omega
  rw [InputboxKeys.shifted, hscroll, h.strAt]
  refine ⟨h.instr, h.chars, h.short, rfl, by dsimp only; omega, by dsimp only; omega, ?_, h.button⟩
  dsimp only
  rw [printed_eq _ _ (Nat.le_of_eq h.length_row.symm), List.drop_of_length_le (Nat.le_of_eq h.length_row),
    List.append_nil, h.instr, view_blanks h.chars (by omega) (by omega)]

theorem Holds.erased (h : Holds boxWidth s l) :
    ∃ s', erased boxWidth s = some s' ∧ Holds boxWidth s' (l.erase boxWidth) := by
  have hcursor := h.cursor
  have hwithin := h.within
  have hshort := h.short
  rw [InputboxKeys.erased, Line.erase]
  by_cases hany : 0 < s.inputX ∨ 0 < s.scroll
  · rw [if_pos hany]
    by_cases hx : s.inputX = 0
    · have hshifted := h.shifted hx
      have hlength := hshifted.length_instr
      have hcursor' := hshifted.cursor
      have hwithin' := hshifted.within
      have hplace : (InputboxKeys.shifted boxWidth s).scroll + (InputboxKeys.shifted boxWidth s).inputX =
          l.text.length := by
        rw [hshifted.scroll, hcursor']
      have hrow : (l.text.drop (l.scroll - (boxWidth - 1))).length = (InputboxKeys.shifted boxWidth s).inputX := by
        rw [List.length_drop]
        dsimp only at hcursor'
        omega
      rw [if_pos hx, if_pos (by omega)]
      dsimp only
      rw [hplace, store, if_pos (by omega), Option.map_some]
      refine ⟨_, rfl, ?_, h.chars, hshort, hshifted.scroll, hcursor', hwithin', ?_, h.button⟩
      · dsimp only
        rw [hshifted.instr]
        exact set_end_same _ _ (by dsimp only; omega)
      · dsimp only
        rw [hshifted.row, ← hrow]
        exact set_end_same _ _ (by omega)
    · have hne : l.text ≠ [] := List.ne_nil_of_length_pos (by omega)
      have hlength := h.length_instr
      have hdrop : l.text.drop l.scroll ≠ [] := List.ne_nil_of_length_pos (by rw [List.length_drop]; omega)
      rw [if_neg hx, if_neg (by omega)]
      dsimp only
      rw [h.scroll, show l.scroll + (s.inputX - 1) = l.text.length - 1 by omega, store, if_pos (by omega),
        Option.map_some]
      refine ⟨_, rfl, ?_, fun hmem => h.chars (List.mem_of_mem_dropLast hmem), ?_, rfl, ?_,
        by dsimp only; omega, ?_, h.button⟩
      · dsimp only
        rw [h.instr, set_last _ hne, List.length_dropLast]
        congr 2
        omega
      · rw [List.length_dropLast]
        omega
      · rw [List.length_dropLast]
        dsimp only
        omega
      · have hx' : s.inputX - 1 = (l.text.drop l.scroll).length - 1 := by
          rw [List.length_drop]
          omega
        dsimp only
        rw [h.row, hx', set_last _ hdrop, List.dropLast_drop_eq_drop_dropLast]
        congr 2
        omega
  · have hscroll := h.scroll
    rw [if_neg hany, if_pos (by omega), show l.scroll - (boxWidth - 1) = l.scroll by omega]
    exact ⟨s, rfl, h⟩

end Results

end T2SDE.InputboxKeys
