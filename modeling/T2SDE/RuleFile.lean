import T2SDE.Inputbox
import T2SDE.Lib.Echo
import T2SDE.Lib.Lines

namespace T2SDE.Config

open Text

/-- `tail -n +$2 $1 | head -n 1`, as the dialog gets it -/
def ruleLine (n : Nat) (file : Str) : Str := substitution (headLines 1 (dropLines (n - 1) file))

/-- `editfile_action`: the file behind it. The exit status of the dialog is not looked at. -/
def editfileAction (n : Nat) (file : Str) (answer : Answer) : Option Str :=
  (jInputbox (ruleLine n file) fun _ => answer).map fun result =>
    headLines (n - 1) file ++ ((if result.2 = [] then [] else Echo.plainEcho (substitution result.2)) ++
      dropLines n file)

/-- What the user asked for. -/
def Intended (n : Nat) (file new : Str) : Answer → Prop
  | .ok text =>
    fileLines new = (fileLines file).take (n - 1) ++
    ((if text = [] then [] else [text]) ++ (fileLines file).drop n)
  | .cancel => new = file
  | .escape => new = file

/-- When an answer is carried out: a text that is written as it is, on a line of its own, and
nothing to delete where the dialog is left without one. -/
def CarriedOut (n : Nat) (file : Str) : Answer → Prop
  | .ok text =>
    text = [] ∨ '%' ∉ text ∧ Echo.isOption text = false ∧ (n ≤ (fileLines file).length ∨ Terminated file)
  | .cancel => (fileLines file).length < n
  | .escape => (fileLines file).length < n

section Edit

variable {n : Nat} {file text : Str}

theorem jInputbox_ok (h : (ruleLine n file).length ≤ maxLen) :
    (jInputbox (ruleLine n file) fun _ => .ok text) = (fprintf text).map fun out => (0, out) := if_pos h

/-- The file without a line has the bytes of the other lines. -/
theorem deleted_eq_iff (hn : 0 < n) : headLines (n - 1) file ++ dropLines n file = file ↔
    (fileLines file).length < n := by
  have hsplit := headLines_append_dropLines (n - 1) file
  constructor
  · intro h
    have hdrop : dropLines n file = dropLines (n - 1) file := List.append_cancel_left (h.trans hsplit.symm)
    have hlines := congrArg (List.length ∘ fileLines) hdrop
    simp only [Function.comp_apply, fileLines_dropLines, List.length_drop] at hlines
    omega
  · intro h
    have hrest : dropLines (n - 1) file = [] := dropLines_eq_nil (by omega)
    rw [hrest] at hsplit
    rwa [dropLines_eq_nil (by omega)]

theorem terminated_front (hready : n ≤ (fileLines file).length ∨ Terminated file) (hn : 0 < n) :
    Terminated (headLines (n - 1) file) := by
  by_cases hrest : dropLines (n - 1) file = []
  · have hlines := congrArg (List.length ∘ fileLines) hrest
    simp only [Function.comp_apply, fileLines_dropLines, List.length_drop, fileLines,
      List.length_nil] at hlines
    rw [headLines_eq_self (by omega)]
    exact hready.resolve_left (by omega)
  · exact terminated_headLines hrest

theorem fileLines_replaced (hn : 0 < n) (hready : n ≤ (fileLines file).length ∨ Terminated file) {s : Str}
    (hs : Terminated s) :
    fileLines (headLines (n - 1) file ++ (s ++ dropLines n file)) =
      (fileLines file).take (n - 1) ++ (fileLines s ++ (fileLines file).drop n) := by
  rw [fileLines_append (terminated_front hready hn), fileLines_append hs, fileLines_headLines,
    fileLines_dropLines]

theorem fileLines_deleted (hn : 0 < n) :
    fileLines (headLines (n - 1) file ++ dropLines n file) =
    (fileLines file).take (n - 1) ++ (fileLines file).drop n := by
  by_cases hle : n ≤ (fileLines file).length
  · exact fileLines_replaced hn (.inl hle) terminated_nil
  · rw [dropLines_eq_nil (by omega), List.append_nil, fileLines_headLines,
      List.drop_eq_nil_of_le (by omega), List.append_nil]

theorem plainEcho_cases (s : Str) :
    (Echo.isOption s = true ∧ (Echo.plainEcho s = [] ∨ Echo.plainEcho s = ['\n'])) ∨
      Echo.isOption s = false ∧ Echo.plainEcho s = s ++ ['\n'] := by
  rw [Echo.plainEcho]
  cases Echo.isOption s with
  | false => exact .inr ⟨rfl, rfl⟩
  | true =>
    refine .inl ⟨rfl, ?_⟩
    rw [if_pos rfl]
    split
    next => exact .inl rfl
    next => exact .inr rfl

theorem terminated_plainEcho (s : Str) : Terminated (Echo.plainEcho s) := by
  rcases plainEcho_cases s with ⟨-, hempty | hnewline⟩ | ⟨-, htext⟩
  · rw [hempty]
    exact terminated_nil
  · rw [hnewline]
    exact fun c hc => (Option.some.inj hc).symm
  · rw [htext, Terminated, List.getLast?_concat]
    exact fun c hc => (Option.some.inj hc).symm

/-- The line that is written for a text, if it is that text. -/
theorem fileLines_plainEcho {s : Str} (hs : '\n' ∉ s) (hne : text ≠ []) :
    fileLines (Echo.plainEcho s) = [text] ↔ Echo.isOption s = false ∧ s = text := by
  rcases plainEcho_cases s with ⟨hoption, hempty | hnewline⟩ | ⟨hplain, htext⟩
  · rw [hempty, hoption]
    simp [fileLines]
  · rw [hnewline, hoption]
    simp [fileLines, Ne.symm hne]
  · rw [htext, hplain, fileLines_line hs]
    simp [fileLines]

/-- A text is appended to the last line, if that has no newline. -/
theorem fileLines_appended (hready : ¬Terminated file) {s : Str} (hs : '\n' ∉ s) :
    (fileLines (file ++ Echo.plainEcho s)).length = (fileLines file).length := by
  rcases plainEcho_cases s with ⟨-, hempty | hnewline⟩ | ⟨-, htext⟩
  · rw [hempty, List.append_nil]
  · rw [hnewline]
    exact length_fileLines_continued (w := []) hready (by simp)
  · rw [htext]
    exact length_fileLines_continued hready hs

theorem editfileAction_ok (hlen : (ruleLine n file).length ≤ maxLen) (text : Str) :
    editfileAction n file (.ok text) = (fprintf text).map fun out =>
      headLines (n - 1) file ++ ((if out = [] then [] else Echo.plainEcho (substitution out)) ++
      dropLines n file) := by
  rw [editfileAction, jInputbox_ok hlen, Option.map_map]
  rfl

theorem confirmed_iff (hn : 0 < n) (hle : n ≤ (fileLines file).length + 1)
    (hlen : (ruleLine n file).length ≤ maxLen)
    (hline : '\n' ∉ text) (hne : text ≠ []) :
    (∃ new, editfileAction n file (.ok text) = some new ∧ Intended n file new (.ok text)) ↔
      '%' ∉ text ∧ Echo.isOption text = false ∧ (n ≤ (fileLines file).length ∨ Terminated file) := by
  rw [editfileAction_ok hlen]
  constructor
  · rintro ⟨new, hnew, hintended⟩
    obtain ⟨out, hout, rfl⟩ := Option.map_eq_some_iff.mp hnew
    have hclean : '\n' ∉ out := fun hmem => hline (mem_fprintf hout hmem)
    rw [Intended, if_neg hne, substitution_free hclean] at hintended
    have hready : n ≤ (fileLines file).length ∨ Terminated file := by
      by_contra hnot
      rw [not_or, Nat.not_le] at hnot
      have hend : (fileLines file).length ≤ n - 1 := by omega
      rw [dropLines_eq_nil (by omega), List.append_nil, headLines_eq_self hend, List.take_of_length_le hend,
        List.drop_eq_nil_of_le (by omega)] at hintended
      have hcount := congrArg List.length hintended
      simp only [List.length_append, List.length_singleton, List.length_nil, Nat.add_zero] at hcount
      split at hcount
      next =>
        rw [List.append_nil] at hcount
        omega
      next =>
        rw [fileLines_appended hnot.2 hclean] at hcount
        omega
    have hwritten : out ≠ [] ∧ fileLines (Echo.plainEcho out) = [text] := by
      split at hintended
      next hempty =>
        rw [fileLines_replaced hn hready terminated_nil] at hintended
        exact absurd (List.append_cancel_right (List.append_cancel_left hintended)) (by simp [fileLines])
      next hempty =>
        rw [fileLines_replaced hn hready (terminated_plainEcho out)] at hintended
        exact ⟨hempty, List.append_cancel_right (List.append_cancel_left hintended)⟩
    obtain ⟨hplain, rfl⟩ := (fileLines_plainEcho hclean hne).mp hwritten.2
    refine ⟨(fprintf_substitution hline).mp ?_, hplain, hready⟩
    rw [hout, Option.map_some, substitution_free hclean]
  · rintro ⟨hpercent, hplain, hready⟩
    rw [fprintf_plain hpercent, Option.map_some, if_neg hne, substitution_free hline]
    refine ⟨_, rfl, ?_⟩
    rw [Intended, if_neg hne, fileLines_replaced hn hready (terminated_plainEcho text),
      (fileLines_plainEcho hline hne).mpr ⟨hplain, rfl⟩]

theorem left_iff (hn : 0 < n) {answer : Answer} {status : Nat}
    (hanswer : (jInputbox (ruleLine n file) fun _ => answer) = some (status, [])) :
    (∃ new, editfileAction n file answer = some new ∧ new = file) ↔ (fileLines file).length < n := by
  rw [← deleted_eq_iff hn, editfileAction, hanswer]
  constructor
  · rintro ⟨new, hnew, heq⟩
    exact (Option.some.inj hnew).trans heq
  · exact fun h => ⟨file, congrArg some h, rfl⟩

end Edit

/-- Editing a line does what the user asked for and keeps the others exactly under these conditions. -/
theorem editfile_iff {n : Nat} {file : Str} (hn : 0 < n) (hle : n ≤ (fileLines file).length + 1)
    (answer : Answer)
    (htext : ∀ text, answer = .ok text → '\n' ∉ text) :
    (∃ new, editfileAction n file answer = some new ∧ Intended n file new answer) ↔
      (ruleLine n file).length ≤ maxLen ∧ CarriedOut n file answer := by
  by_cases hlen : (ruleLine n file).length ≤ maxLen
  · rw [and_iff_right hlen]
    cases answer with
    | ok text =>
      by_cases hne : text = []
      · subst hne
        have hnew : editfileAction n file (.ok []) = some (headLines (n - 1) file ++ dropLines n file) :=
          editfileAction_ok hlen []
        exact iff_of_true ⟨_, hnew, fileLines_deleted hn⟩ (.inl rfl)
      · rw [CarriedOut, or_iff_right hne]
        exact confirmed_iff hn hle hlen (htext text rfl) hne
    | cancel => exact left_iff hn (if_pos hlen)
    | escape => exact left_iff hn (if_pos hlen)
  · have hnone : editfileAction n file answer = none := by
      rw [editfileAction, jInputbox, if_neg hlen]
      rfl
    rw [hnone]
    simp [hlen]

def sampleRules : Str := "X gcc\nO perl\n".toList

theorem editfile_rules :
    (∃ new, editfileAction 2 sampleRules (.ok "X perl".toList) = some new ∧
      Intended 2 sampleRules new (.ok "X perl".toList)) ↔
      (ruleLine 2 sampleRules).length ≤ maxLen ∧ CarriedOut 2 sampleRules (.ok "X perl".toList) :=
  editfile_iff (by decide) (by decide) (.ok "X perl".toList) fun text htext => by
    cases htext
    decide

/-- Cancelling the dialog deletes the rule. -/
theorem editfile_cancelled : ¬∀ (n : Nat) (file : Str) (answer : Answer),
    0 < n → n ≤ (fileLines file).length + 1 →
    (∀ text, answer = .ok text → '\n' ∉ text) →
    ∃ new, editfileAction n file answer = some new ∧ Intended n file new answer := by
  intro h
  obtain ⟨new, hnew, hintended⟩ := h 2 sampleRules .cancel (by decide) (by decide) fun _ htext =>
    nomatch htext
  have hleft : editfileAction 2 sampleRules .cancel = some "X gcc\n".toList := by decide
  have heq : "X gcc\n".toList = new := Option.some.inj (hleft.symm.trans hnew)
  exact absurd (heq.trans hintended) (by decide)

end T2SDE.Config
