import T2SDE.PkgLine

namespace T2SDE

open Text Lua

theorem contains_of_subset {l m : Str} (h : l.all m.contains = true) {c : Char}
    (hc : l.contains c = true) : m.contains c = true :=
  List.all_eq_true.mp h c (List.contains_iff_mem.mp hc)

theorem stagesClass_admits {c : Char} (h : stageChar c = true) : stagesClass.admits c = true := by
  rwa [stagesClass, admits_chars]

theorem priorityClass_admits {c : Char} (h : priorityChar c = true) : priorityClass.admits c = true := by
  rwa [priorityClass, admits_chars]

theorem categoriesClass_admits {c : Char} (h : categoryChar c = true) :
    categoriesClass.admits c = true := by
  rw [categoriesClass, admits_chars]
  exact contains_of_subset (by decide +kernel) h

theorem flagsClass_admits {c : Char} (h : flagChar c = true) : flagsClass.admits c = true := by
  rw [flagsClass, admits_chars]
  exact contains_of_subset (by decide +kernel) h

theorem upper_not_category {c : Char} (h : c.isUpper = true) : categoriesClass.admits c = false := by
  rw [categoriesClass, admits_chars, Bool.eq_false_iff]
  intro hc
  have hall : "abcdefghijklmnopqrstuvwxyz0123456789/ ".toList.all (! Char.isUpper ·) = true := by
    decide +kernel
  simpa [h] using List.all_eq_true.mp hall c (List.contains_iff_mem.mp hc)

theorem categoryChar_nonspace {c : Char} (h : categoryChar c = true) : percentClass 'S' c = true := by
  have hall : "abcdefghijklmnopqrstuvwxyz0123456789/".toList.all (percentClass 'S') = true := by
    decide +kernel
  exact List.all_eq_true.mp hall c (List.contains_iff_mem.mp h)

theorem words_cons (w v : Str) (ws : List Str) : words (w :: v :: ws) = w ++ ' ' :: words (v :: ws) :=
  intercalate_cons ' ' w v ws

theorem words_single (w : Str) : words [w] = w := by
  simp [words, List.intercalate]

theorem words_ends {ws : List Str} (hne : ws ≠ []) :
    (∃ w ∈ ws, ∃ t, words ws = w ++ t) ∧ ∃ w ∈ ws, ∃ t, words ws = t ++ w := by
  induction ws with
  | nil => exact absurd rfl hne
  | cons w ws ih =>
    cases ws with
    | nil => exact ⟨⟨w, by simp, [], by simp [words_single]⟩, w, by simp, [], by simp [words_single]⟩
    | cons v ws =>
      obtain ⟨_, u, hu, t, ht⟩ := ih (List.cons_ne_nil v ws)
      rw [words_cons]
      exact ⟨⟨w, by simp, _, rfl⟩, u, List.mem_cons_of_mem w hu, w ++ ' ' :: t, by simp [ht]⟩

theorem words_chars {p : Char → Bool} (hp : p ' ' = true) {ws : List Str}
    (hws : ∀ w ∈ ws, ∀ c ∈ w, p c = true) : ∀ c ∈ words ws, p c = true := by
  intro c hc
  rcases mem_intercalate hc with rfl | ⟨w, hw, hcw⟩
  · exact hp
  · exact hws w hw c hcw

theorem words_head {letter char : Char → Bool} {ws : List Str} (hne : ws ≠ [])
    (hws : ∀ w ∈ ws, Tag letter char w) : ∃ c t, words ws = c :: t ∧ letter c = true := by
  obtain ⟨⟨w, hw, t, ht⟩, -⟩ := words_ends hne
  obtain ⟨⟨c, u, rfl, hc⟩, -⟩ := hws w hw
  exact ⟨c, u ++ t, by simp [ht], hc⟩

theorem words_last {letter char : Char → Bool} {ws : List Str} (hne : ws ≠ [])
    (hws : ∀ w ∈ ws, Tag letter char w) : ∃ t c, words ws = t ++ [c] ∧ char c = true := by
  obtain ⟨-, w, hw, t, ht⟩ := words_ends hne
  obtain ⟨⟨d, u, hdu, -⟩, hchars⟩ := hws w hw
  have hwne : w ≠ [] := by simp [hdu]
  refine ⟨t ++ w.dropLast, w.getLast hwne, ?_, hchars _ (List.getLast_mem hwne)⟩
  rw [ht, List.append_assoc, List.dropLast_append_getLast]

section Tail

variable (cs : List Capture)

theorem flagItems_none : doMatch flagItems [] cs = none ∧ doMatch flagItems ['0'] cs = none ∧
    doMatch flagItems [' ', '0'] cs = some ([], .text [] :: cs) :=
  ⟨rfl, rfl, rfl⟩

theorem maxExpand_closing {k : Str → Option (Str × List Capture)} {p : Char → Bool} {run : Str}
    {r : Str × List Capture} (hrun : ∀ c ∈ run, p c = true) (h0 : k [] = none) (h1 : k ['0'] = none)
    (h2 : k [' ', '0'] = some r) : maxExpand k p (run ++ [' ', '0']) = some r := by
  refine maxExpand_append hrun (maxExpand_back (maxExpand_none ?_ h1) h2)
  rwa [maxExpand_stop (stops_nil p)]

/-- The flags are taken up to the last ` 0`. -/
theorem flagItems_some {fs : Str} (hhead : ∃ c t, fs = c :: t ∧ c.isUpper = true)
    (hfs : ∀ c ∈ fs, flagsClass.admits c = true) :
    doMatch flagItems (fs ++ [' ', '0']) cs = some ([], .text fs :: cs) := by
  have hblank : Stops (CharClass.char ' ').admits (fs ++ [' ', '0']) := by
    obtain ⟨c, t, rfl, hc⟩ := hhead
    have hne : ' ' ≠ c := fun h => by simp [← h] at hc
    exact stops_cons (by simpa [CharClass.admits] using hne) _
  refine doMatch_pass hblank ?_
  rw [doMatch_starCapture]
  refine maxExpand_closing hfs rfl rfl ?_
  rw [between_append]
  rfl

theorem categoryItems_none {w : Str} (hne : w ≠ []) (hw : ∀ c ∈ w, categoriesClass.admits c = true) :
    doMatch categoryItems (w ++ [' ', '0']) cs = some ([], .text [] :: .text w :: cs) := by
  obtain ⟨c, w, rfl⟩ := List.exists_cons_of_ne_nil hne
  rw [categoryItems, List.cons_append, doMatch_plusCapture, if_pos (hw c (by simp))]
  refine maxExpand_closing (fun x hx => hw x (by simp [hx])) ?_ ?_ ?_
  · exact (flagItems_none _).1
  · exact (flagItems_none _).2.1
  · rw [← List.cons_append, between_append]
    exact (flagItems_none _).2.2

theorem categoryItems_some {w fs : Str} (hw : ∀ c ∈ w, categoriesClass.admits c = true)
    (hhead : ∃ c t, fs = c :: t ∧ c.isUpper = true) (hfs : ∀ c ∈ fs, flagsClass.admits c = true) :
    doMatch categoryItems (w ++ ' ' :: (fs ++ [' ', '0'])) cs =
      some ([], .text fs :: .text (w ++ [' ']) :: cs) := by
  have hstop : Stops categoriesClass.admits (fs ++ [' ', '0']) := by
    obtain ⟨c, t, rfl, hc⟩ := hhead
    exact stops_cons (upper_not_category hc) _
  have hblank : ∀ c ∈ w ++ [' '], categoriesClass.admits c = true := by
    intro c hc
    rcases List.mem_append.mp hc with hc | hc
    · exact hw c hc
    · rw [List.mem_singleton.mp hc]
      decide
  rw [List.append_cons]
  exact doMatch_field (by simp) hblank hstop (flagItems_some _ hhead hfs)

end Tail

def PkgLine.captured (l : PkgLine) : Str := words l.categories ++ if l.flags = [] then [] else [' ']

def PkgLine.tail (l : PkgLine) : Str :=
  words l.categories ++ (if l.flags = [] then [] else ' ' :: words l.flags) ++ [' ', '0']

theorem PkgLine.categories_admitted (l : PkgLine) :
    ∀ c ∈ words l.categories, categoriesClass.admits c = true :=
  words_chars (by decide) fun w hw c hc => categoriesClass_admits ((l.categories_ok w hw).2 c hc)

theorem PkgLine.doMatch_tail (l : PkgLine) (cs : List Capture) :
    doMatch categoryItems l.tail cs = some ([], .text (words l.flags) :: .text l.captured :: cs) := by
  have hcategories := l.categories_admitted
  obtain ⟨c, t, hhead, -⟩ := words_head l.categories_ne l.categories_ok
  by_cases hf : l.flags = []
  · have hne : words l.categories ≠ [] := by simp [hhead]
    have hnone := categoryItems_none cs hne hcategories
    simpa [tail, captured, hf, words, List.intercalate] using hnone
  · have hflags : ∀ c ∈ words l.flags, flagsClass.admits c = true :=
      words_chars (by decide) fun w hw c hc => flagsClass_admits ((l.flags_ok w hw).2 c hc)
    have hsome := categoryItems_some cs hcategories (words_head hf l.flags_ok) hflags
    simpa [tail, captured, hf] using hsome

theorem PkgLine.tail_head (l : PkgLine) : ∃ c t, l.tail = c :: t ∧ c.isLower = true := by
  obtain ⟨c, t, hhead, hc⟩ := words_head l.categories_ne l.categories_ok
  exact ⟨c, _, by rw [tail, hhead, List.append_assoc, List.cons_append], hc⟩

theorem Plain.admitted {s : Str} (h : Plain s) : ∀ c ∈ s, (CharClass.percent 'S').admits c = true :=
  fun c hc => (h.2 c hc).1

theorem doMatch_fieldItems {cls : CharClass} {items : List Item} {w rest : Str} {r : Str × List Capture}
    (cs : List Capture) (hne : w ≠ []) (hw : ∀ c ∈ w, cls.admits c = true)
    (hblank : cls.admits ' ' = false) (hrest : Stops (CharClass.char ' ').admits rest)
    (h : doMatch items rest (.text w :: cs) = some r) :
    doMatch (fieldItems cls items) (w ++ ' ' :: rest) cs = some r :=
  doMatch_field hne hw (stops_cons hblank rest) (doMatch_skipChar hrest h)

theorem PkgLine.extraver_some (l : PkgLine) {extraver : Str} (he : Plain extraver) (cs : List Capture) :
    doMatch extraverItems (extraver ++ ' ' :: '/' :: ' ' :: l.tail) cs =
      some ([], .text (words l.flags) :: .text l.captured :: .text extraver :: cs) := by
  refine doMatch_starField he.admitted (stops_cons (by decide) _) ?_
  refine doMatch_skipChar (stops_cons (by decide) _) ?_
  exact doMatch_char (doMatch_char (l.doMatch_tail _))

/-- Without one the capture first takes the slash itself and has to give it back, since the
categories start with a letter. -/
theorem PkgLine.extraver_none (l : PkgLine) (cs : List Capture) :
    doMatch extraverItems ('/' :: ' ' :: l.tail) cs =
      some ([], .text (words l.flags) :: .text l.captured :: .text [] :: cs) := by
  obtain ⟨c, t, hhead, hc⟩ := l.tail_head
  have hslash : '/' ≠ c := fun h => by simp [← h] at hc
  have hblank : ' ' ≠ c := fun h => by simp [← h] at hc
  have htaken : ∀ cs, doMatch (.single (.char ' ') .star :: .single (.char '/') .one ::
      .single (.char ' ') .one :: categoryItems) (' ' :: l.tail) cs = none := by
    intro cs
    rw [doMatch, hhead]
    refine maxExpand_none ?_ rfl
    rw [maxExpand_stop (stops_cons (by simpa [CharClass.admits] using hblank) t)]
    simp [doMatch, CharClass.admits, hslash]
  rw [extraverItems, doMatch_starCapture]
  refine maxExpand_back ?_ ?_
  · rw [maxExpand_stop (stops_cons (by decide) _)]
    exact htaken _
  · refine doMatch_pass (stops_cons (by decide) _) ?_
    refine doMatch_char (doMatch_char ?_)
    have hb : between ('/' :: ' ' :: l.tail) ('/' :: ' ' :: l.tail) = [] := between_append [] _
    rw [hb]
    exact l.doMatch_tail _

def PkgLine.behindVer (l : PkgLine) : Str :=
  match l.extraver with
  | some extraver => extraver ++ ' ' :: '/' :: ' ' :: l.tail
  | none => '/' :: ' ' :: l.tail

theorem PkgLine.text_eq (l : PkgLine) :
    l.text = l.status.text ++ ' ' :: (l.stages ++ ' ' :: (l.priority ++ ' ' :: (l.repository ++
      ' ' :: (l.name ++ ' ' :: (l.ver ++ ' ' :: l.behindVer))))) := by
  unfold text behindVer tail
  cases l.extraver <;> by_cases hf : l.flags = [] <;> simp [hf]

theorem stops_blank {s : Str} (hne : s ≠ []) (hs : ∀ c ∈ s, c ≠ ' ') (rest : Str) :
    Stops (CharClass.char ' ').admits (s ++ rest) := by
  obtain ⟨c, s, rfl⟩ := List.exists_cons_of_ne_nil hne
  exact stops_cons (by simpa [CharClass.admits] using (hs c (by simp)).symm) _

theorem Plain.no_blank {s : Str} (h : Plain s) : ∀ c ∈ s, c ≠ ' ' := by
  rintro c hc rfl
  have := (h.2 ' ' hc).1
  simp [percentClass] at this

theorem PkgLine.behindVer_stops (l : PkgLine) : Stops (CharClass.char ' ').admits l.behindVer := by
  unfold behindVer
  cases he : l.extraver with
  | some extraver =>
    have hplain := l.extraver_ok extraver he
    exact stops_blank hplain.1 hplain.no_blank _
  | none => exact stops_cons (by decide) _

theorem PkgLine.doMatch_behindVer (l : PkgLine) (cs : List Capture) :
    doMatch extraverItems l.behindVer cs = some ([], .text (words l.flags) :: .text l.captured ::
      .text (l.extraver.getD []) :: cs) := by
  unfold behindVer
  cases he : l.extraver with
  | some extraver => exact l.extraver_some (l.extraver_ok extraver he) cs
  | none => exact l.extraver_none cs

theorem PkgLine.doMatch_plain (l : PkgLine) (cs : List Capture) :
    doMatch (fieldItems (.percent 'S') (fieldItems (.percent 'S') (fieldItems (.percent 'S') extraverItems)))
        (l.repository ++ ' ' :: (l.name ++ ' ' :: (l.ver ++ ' ' :: l.behindVer))) cs =
      some ([], .text (words l.flags) :: .text l.captured :: .text (l.extraver.getD []) ::
        .text l.ver :: .text l.name :: .text l.repository :: cs) := by
  have hblank : (CharClass.percent 'S').admits ' ' = false := by decide
  refine doMatch_fieldItems _ l.repository_ok.1 l.repository_ok.admitted hblank
    (stops_blank l.name_ok.1 l.name_ok.no_blank _) ?_
  refine doMatch_fieldItems _ l.name_ok.1 l.name_ok.admitted hblank
    (stops_blank l.ver_ok.1 l.ver_ok.no_blank _) ?_
  exact doMatch_fieldItems _ l.ver_ok.1 l.ver_ok.admitted hblank l.behindVer_stops
    (l.doMatch_behindVer _)

theorem no_blank_of {p : Char → Bool} (hp : p ' ' = false) {s : Str} (hs : ∀ c ∈ s, p c = true) :
    ∀ c ∈ s, c ≠ ' ' := by
  rintro c hc rfl
  simp [hs ' ' hc] at hp

/-- The pattern splits a line at its fields. -/
theorem PkgLine.doMatch_text (l : PkgLine) :
    doMatch pkgItems l.text [] = some ([], [.text (words l.flags), .text l.captured,
      .text (l.extraver.getD []), .text l.ver, .text l.name, .text l.repository, .text l.priority,
      .text l.stages, .text l.status.text]) := by
  have hone : ∃ c, l.status.text = [c] ∧
      (CharClass.set false ("XO".toList.map .char)).admits c = true := by
    cases l.status
    · exact ⟨'X', rfl, rfl⟩
    · exact ⟨'O', rfl, rfl⟩
  obtain ⟨c, htext, hc⟩ := hone
  have hstages := stops_blank l.stages_ok.1 (no_blank_of (by decide) l.stages_ok.2)
  have hpriority := stops_blank l.priority_ok.1 (no_blank_of (by decide) l.priority_ok.2)
  have hrepository := stops_blank l.repository_ok.1 l.repository_ok.no_blank
  rw [l.text_eq, htext, pkgItems]
  refine doMatch_oneCapture hc _ ?_
  refine doMatch_skipChar (hstages _) ?_
  refine doMatch_fieldItems _ l.stages_ok.1 (fun c hc => stagesClass_admits (l.stages_ok.2 c hc))
    (by decide) (hpriority _) ?_
  refine doMatch_fieldItems _ l.priority_ok.1 (fun c hc => priorityClass_admits (l.priority_ok.2 c hc))
    (by decide) (hrepository _) ?_
  exact l.doMatch_plain _

end T2SDE
