import Mathlib.Tactic.SplitIfs
import T2SDE.Lib.LuaPattern

namespace Lua

open Text

theorem admits_chars (l : Str) (c : Char) : (CharClass.set false (l.map .char)).admits c = l.contains c := by
  induction l with
  | nil => rfl
  | cons d l ih =>
    simp only [CharClass.admits, List.map_cons, List.any_cons, SetElem.admits, Bool.bne_false,
      List.contains_cons] at ih ⊢
    rw [ih, Bool.beq_comm]

/-- The text does not start with a character that passes the test. -/
def Stops (p : Char → Bool) (s : Str) : Prop := ∀ c t, s = c :: t → p c = false

theorem stops_nil (p : Char → Bool) : Stops p [] := by
  intro c t h
  cases h

theorem stops_cons {p : Char → Bool} {c : Char} (h : p c = false) (s : Str) : Stops p (c :: s) := by
  intro d t hd
  cases hd
  exact h

section Expand

variable {β : Type} {k : Str → Option β} {p : Char → Bool} {run rest s : Str} {r : β}

theorem maxExpand_stop (h : Stops p s) : maxExpand k p s = k s := by
  cases s with
  | nil => rfl
  | cons c s => simp [maxExpand, h c s rfl]

theorem maxExpand_append (hrun : ∀ c ∈ run, p c = true) (h : maxExpand k p rest = some r) :
    maxExpand k p (run ++ rest) = some r := by
  induction run with
  | nil => exact h
  | cons c run ih =>
    have ih := ih fun x hx => hrun x (by simp [hx])
    simp [maxExpand, hrun c (by simp), ih]

theorem maxExpand_run (hrun : ∀ c ∈ run, p c = true) (hstop : Stops p rest) (h : k rest = some r) :
    maxExpand k p (run ++ rest) = some r :=
  maxExpand_append hrun ((maxExpand_stop hstop).trans h)

theorem maxExpand_back {c : Char} (hlong : maxExpand k p s = none) (h : k (c :: s) = some r) :
    maxExpand k p (c :: s) = some r := by
  cases hc : p c <;> simp [maxExpand, hc, hlong, h]

theorem maxExpand_none {c : Char} (hlong : maxExpand k p s = none) (h : k (c :: s) = none) :
    maxExpand k p (c :: s) = none := by
  cases hc : p c <;> simp [maxExpand, hc, hlong, h]

theorem maxExpand_isSome : (maxExpand k p s).isSome ↔
    ∃ run rest, s = run ++ rest ∧ (∀ c ∈ run, p c = true) ∧ (k rest).isSome := by
  induction s with
  | nil =>
    constructor
    · intro h
      exact ⟨[], [], rfl, by simp, h⟩
    · rintro ⟨run, rest, hs, -, h⟩
      obtain ⟨-, rfl⟩ := List.append_eq_nil_iff.mp hs.symm
      exact h
  | cons c s ih =>
    cases hc : p c with
    | false =>
      simp only [maxExpand, hc, Bool.false_eq_true, if_false]
      constructor
      · intro h
        exact ⟨[], c :: s, rfl, by simp, h⟩
      · rintro ⟨run, rest, hs, hrun, h⟩
        cases run with
        | nil => rwa [hs]
        | cons d run =>
          have hd : p d = true := hrun d (by simp)
          rw [← (List.cons.inj hs).1, hc] at hd
          exact absurd hd (by simp)
    | true =>
      cases hlong : maxExpand k p s with
      | some r =>
        rw [hlong] at ih
        obtain ⟨run, rest, hs, hrun, h⟩ := ih.mp rfl
        simp only [maxExpand, hc, if_true, hlong, Option.isSome_some, true_iff]
        refine ⟨c :: run, rest, by rw [hs]; rfl, ?_, h⟩
        intro x hx
        rcases List.mem_cons.mp hx with rfl | hx
        · exact hc
        · exact hrun x hx
      | none =>
        rw [hlong] at ih
        simp only [maxExpand, hc, if_true, hlong]
        constructor
        · intro h
          exact ⟨[], c :: s, rfl, by simp, h⟩
        · rintro ⟨run, rest, hs, hrun, h⟩
          cases run with
          | nil => rwa [hs]
          | cons d run =>
            have hrest := ih.mpr ⟨run, rest, (List.cons.inj hs).2, fun x hx => hrun x (by simp [hx]), h⟩
            simp at hrest

theorem maxExpand_eq_none (h : ∀ run rest, s = run ++ rest → k rest = none) :
    maxExpand k p s = none := by
  rw [← Option.not_isSome_iff_eq_none, maxExpand_isSome]
  rintro ⟨run, rest, hs, -, hk⟩
  simp [h run rest hs] at hk

theorem maxExpand_eq_some (h : maxExpand k p s = some r) :
    ∃ run rest, s = run ++ rest ∧ (∀ c ∈ run, p c = true) ∧ k rest = some r := by
  induction s with
  | nil => exact ⟨[], [], rfl, by simp, h⟩
  | cons c s ih =>
    cases hc : p c with
    | false => exact ⟨[], c :: s, rfl, by simp, by simpa [maxExpand, hc] using h⟩
    | true =>
      cases hlong : maxExpand k p s with
      | none => exact ⟨[], c :: s, rfl, by simp, by simpa [maxExpand, hc, hlong] using h⟩
      | some r' =>
        obtain ⟨run, rest, hs, hrun, hk⟩ := ih (by simpa [maxExpand, hc, hlong] using h)
        refine ⟨c :: run, rest, congrArg (c :: ·) hs, ?_, hk⟩
        intro x hx
        rcases List.mem_cons.mp hx with rfl | hx
        · exact hc
        · exact hrun x hx

end Expand

section Match

variable {items : List Item} {cs : List Capture} {w rest : Str} {r : Str × List Capture}

@[simp] theorem between_append (w rest : Str) : between (w ++ rest) rest = w := by
  simp [between]

theorem doMatch_char {c : Char} (h : doMatch items rest cs = some r) :
    doMatch (.single (.char c) .one :: items) (c :: rest) cs = some r := by
  have hc : (CharClass.char c).admits c = true := beq_self_eq_true c
  rw [doMatch_one_cons, if_pos hc, h]

theorem doMatch_plusCapture (cls : CharClass) (c : Char) (s : Str) :
    doMatch (.openCapture :: .single cls .plus :: .closeCapture :: items) (c :: s) cs =
      if cls.admits c then
        maxExpand (fun u => doMatch items u (.text (between (c :: s) u) :: cs)) cls.admits s
      else none := rfl

theorem doMatch_oneCapture {cls : CharClass} {c : Char} (hc : cls.admits c = true) (s : Str)
    (h : doMatch items s (.text [c] :: cs) = some r) :
    doMatch (.openCapture :: .single cls .one :: .closeCapture :: items) (c :: s) cs = some r := by
  have hb : between (c :: s) s = [c] := between_append [c] s
  rw [doMatch_openCapture, doMatch_one_cons, if_pos hc, doMatch_closeCapture, close, hb, Option.bind_some, h]

theorem doMatch_starCapture (cls : CharClass) (s : Str) :
    doMatch (.openCapture :: .single cls .star :: .closeCapture :: items) s cs =
      maxExpand (fun u => doMatch items u (.text (between s u) :: cs)) cls.admits s := rfl

theorem doMatch_field {cls : CharClass} (hne : w ≠ []) (hw : ∀ c ∈ w, cls.admits c = true)
    (hstop : Stops cls.admits rest) (h : doMatch items rest (.text w :: cs) = some r) :
    doMatch (.openCapture :: .single cls .plus :: .closeCapture :: items) (w ++ rest) cs = some r := by
  obtain ⟨c, w, rfl⟩ := List.exists_cons_of_ne_nil hne
  rw [List.cons_append, doMatch_plusCapture, if_pos (hw c (by simp))]
  refine maxExpand_run (fun x hx => hw x (by simp [hx])) hstop ?_
  rwa [← List.cons_append, between_append]

theorem doMatch_starField {cls : CharClass} (hw : ∀ c ∈ w, cls.admits c = true)
    (hstop : Stops cls.admits rest) (h : doMatch items rest (.text w :: cs) = some r) :
    doMatch (.openCapture :: .single cls .star :: .closeCapture :: items) (w ++ rest) cs = some r := by
  rw [doMatch_starCapture]
  refine maxExpand_run hw hstop ?_
  rwa [between_append]

theorem doMatch_skip {cls : CharClass} (hw : ∀ c ∈ w, cls.admits c = true)
    (hstop : Stops cls.admits rest) (h : doMatch items rest cs = some r) :
    doMatch (.single cls .star :: items) (w ++ rest) cs = some r := by
  rw [doMatch_star]
  exact maxExpand_run hw hstop h

theorem doMatch_plusSkip {cls : CharClass} (hne : w ≠ []) (hw : ∀ c ∈ w, cls.admits c = true)
    (hstop : Stops cls.admits rest) (h : doMatch items rest cs = some r) :
    doMatch (.single cls .plus :: items) (w ++ rest) cs = some r := by
  obtain ⟨c, w, rfl⟩ := List.exists_cons_of_ne_nil hne
  rw [List.cons_append, doMatch_plus_cons, if_pos (hw c (by simp))]
  exact maxExpand_run (fun x hx => hw x (by simp [hx])) hstop h

theorem doMatch_skipChar {d : Char} (hstop : Stops (CharClass.char d).admits rest)
    (h : doMatch items rest cs = some r) :
    doMatch (.single (.char d) .star :: items) (d :: rest) cs = some r := by
  refine doMatch_skip (w := [d]) ?_ hstop h
  intro c hc
  rw [List.mem_singleton.mp hc]
  exact beq_self_eq_true d

theorem doMatch_pass {cls : CharClass} (hstop : Stops cls.admits rest)
    (h : doMatch items rest cs = some r) :
    doMatch (.single cls .star :: items) rest cs = some r := by
  rw [doMatch_star, maxExpand_stop hstop, h]

theorem doMatch_plusCapture_cases {cls : CharClass} {s : Str}
    (h : doMatch (.openCapture :: .single cls .plus :: .closeCapture :: items) s cs = some r) :
    ∃ w rest, s = w ++ rest ∧ w ≠ [] ∧ (∀ c ∈ w, cls.admits c = true) ∧
      doMatch items rest (.text w :: cs) = some r := by
  cases s with
  | nil => cases h
  | cons c s =>
    rw [doMatch_plusCapture] at h
    split_ifs at h with hc
    · obtain ⟨run, rest, rfl, hrun, hk⟩ := maxExpand_eq_some h
      rw [← List.cons_append, between_append] at hk
      refine ⟨c :: run, rest, rfl, by simp, ?_, hk⟩
      intro x hx
      rcases List.mem_cons.mp hx with rfl | hx
      · exact hc
      · exact hrun x hx

theorem doMatch_one_cases {cls : CharClass} {s : Str}
    (h : doMatch (.single cls .one :: items) s cs = some r) :
    ∃ c t, s = c :: t ∧ cls.admits c = true ∧ doMatch items t cs = some r := by
  cases s with
  | nil => cases h
  | cons c s =>
    rw [doMatch_one_cons] at h
    split_ifs at h with hc
    · exact ⟨c, s, rfl, hc, h⟩

theorem doMatch_optional {cls : CharClass} {c : Char} (hc : cls.admits c = true) {s : Str}
    (h : doMatch items s cs = some r) : doMatch (.single cls .optional :: items) (c :: s) cs = some r := by
  rw [doMatch_optional_cons, if_pos hc, h, Option.some_or]

theorem doMatch_optional_cases {cls : CharClass} {s : Str}
    (h : doMatch (.single cls .optional :: items) s cs = some r) : ∃ t, doMatch items t cs = some r := by
  cases s with
  | nil => exact ⟨[], h⟩
  | cons c s =>
    rw [doMatch_optional_cons] at h
    split_ifs at h
    · cases hshort : doMatch items s cs with
      | none => exact ⟨c :: s, by simpa [hshort] using h⟩
      | some r' => exact ⟨s, by simpa [hshort] using h⟩
    · exact ⟨c :: s, h⟩

theorem searchFrom_cases {s : Str} {found : Found} (h : searchFrom items s = some found) :
    ∃ t, doMatch items t [] = some (found.stop, found.captures) := by
  induction s with
  | nil =>
    obtain ⟨⟨stop, captures⟩, hmatch, rfl⟩ := Option.map_eq_some_iff.mp h
    exact ⟨[], hmatch⟩
  | cons c s ih =>
    cases hmatch : doMatch items (c :: s) [] with
    | none => exact ih (by simpa [searchFrom, hmatch] using h)
    | some r =>
      rw [searchFrom, hmatch] at h
      cases h
      exact ⟨c :: s, hmatch⟩

theorem searchFrom_start {s : Str} (h : doMatch items s [] = some r) :
    searchFrom items s = some ⟨s, r.1, r.2⟩ := by
  cases s with
  | nil => simp [searchFrom, h]
  | cons c s => simp [searchFrom, h]

theorem strMatch_start {pattern s stop : Str} {texts : List Str} (hne : texts ≠ [])
    (hc : compile pattern = some ⟨false, items⟩)
    (h : doMatch items s [] = some (stop, texts.reverse.map .text)) :
    strMatch s pattern = some texts := by
  have hmap : (texts.map Capture.text).map Capture.string = texts := by
    rw [List.map_map]
    exact List.map_id texts
  have htexts : Found.texts ⟨s, stop, texts.reverse.map .text⟩ = texts := by
    rw [Found.texts, if_neg (by simpa using hne), ← List.map_reverse, List.reverse_reverse, hmap]
  rw [strMatch, hc, Option.bind_some, search, if_neg (by simp), searchFrom_start h, Option.map_some,
    htexts]

end Match

end Lua
