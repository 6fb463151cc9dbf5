import T2SDE.PkgListRead

namespace T2SDE

open Text Lua

theorem PkgLine.match_categories (l : PkgLine) :
    strMatch l.captured categoriesPattern = some [words l.categories] := by
  obtain ⟨t, c, hlast, hc⟩ := words_last l.categories_ne l.categories_ok
  have hspace := categoryChar_nonspace hc
  have hfound : ∀ blanks : Str, (∀ x ∈ blanks, x = ' ') →
      doMatch [.single (.percent 'S') .one, .closeCapture, .single (.char ' ') .star] (c :: blanks)
        [.unfinished (t ++ ([c] ++ blanks))] = some ([], [.text (t ++ [c])]) := by
    intro blanks hblanks
    have hb := between_append (t ++ [c]) blanks
    have hskip : doMatch [.single (.char ' ') .star] (blanks ++ []) [.text (t ++ [c])] =
        some ([], [.text (t ++ [c])]) :=
      doMatch_skip (fun x hx => by simp [CharClass.admits, hblanks x hx]) (stops_nil _) rfl
    rw [List.append_assoc] at hb
    rw [List.append_nil] at hskip
    rw [doMatch, CharClass.admits, if_pos hspace, doMatch, close, hb, Option.bind_some, hskip]
  suffices h : doMatch [.openCapture, .single .any .star, .single (.percent 'S') .one, .closeCapture,
      .single (.char ' ') .star] l.captured [] = some ([], [.text (words l.categories)]) from
    strMatch_start (by simp) compile_categoriesPattern h
  rw [doMatch, doMatch, captured, hlast, List.append_assoc]
  refine maxExpand_append (fun _ _ => rfl) ?_
  by_cases hf : l.flags = []
  · simp only [hf, if_true]
    exact maxExpand_back rfl (hfound [] (by simp))
  · simp only [hf, if_false]
    exact maxExpand_back (maxExpand_none rfl rfl) (hfound [' '] (by simp))

theorem PkgLine.match_pkg (l : PkgLine) : strMatch l.text pkgPattern =
    some [l.status.text, l.stages, l.priority, l.repository, l.name, l.ver, l.extraver.getD [],
      l.captured, words l.flags] :=
  strMatch_start (by simp) compile_pkgPattern l.doMatch_text

theorem Selection.read_text (s : Selection) : Selection.read s.text = s := by
  cases s <;> rfl

theorem PkgLine.read_text (l : PkgLine) : readLine l.text = (some l.package, []) := by
  unfold readLine
  rw [l.match_pkg]
  dsimp only
  rw [l.match_categories, l.status.read_text]
  simp only [Option.bind_some, List.head?_cons, PkgLine.package]

theorem Plain.no_newline {s : Str} (h : Plain s) : '\n' ∉ s := by
  intro hn
  have := (h.2 '\n' hn).1
  simp [percentClass] at this

theorem not_mem_of {p : Char → Bool} {d : Char} (hp : p d = false) {s : Str}
    (hs : ∀ c ∈ s, p c = true) : d ∉ s := by
  intro hd
  simp [hs d hd] at hp

theorem PkgLine.no_newline (l : PkgLine) : '\n' ∉ l.text := by
  have hstages := not_mem_of (by decide : stageChar '\n' = false) l.stages_ok.2
  have hpriority := not_mem_of (by decide : priorityChar '\n' = false) l.priority_ok.2
  have hcategories := not_mem_of (by decide : categoriesClass.admits '\n' = false) l.categories_admitted
  have hflags : '\n' ∉ words l.flags := by
    refine not_mem_of (by decide : flagsClass.admits '\n' = false) (words_chars (by decide) ?_)
    exact fun w hw c hc => flagsClass_admits ((l.flags_ok w hw).2 c hc)
  have hstatus : '\n' ∉ l.status.text := by cases l.status <;> decide
  have hextraver : ∀ s ∈ l.extraver, '\n' ∉ s := fun s hs => (l.extraver_ok s hs).no_newline
  have hrepository := l.repository_ok.no_newline
  have hname := l.name_ok.no_newline
  have hver := l.ver_ok.no_newline
  rw [l.text_eq]
  unfold behindVer tail
  cases he : l.extraver with
  | none => by_cases hf : l.flags = [] <;> simp [*]
  | some extraver =>
    have := hextraver extraver he
    by_cases hf : l.flags = [] <;> simp [*]

theorem pkglistread_listText (lines : List PkgLine) (st : LuaState) :
    pkglistread (listText lines) st = { packages := lines.map PkgLine.package, printed := st.printed } := by
  have hloop : ∀ (packages : List Package) (printed : List Str),
      (lines.map PkgLine.text).foldl
        (fun st line => ({ packages := st.packages ++ (readLine line).1.toList
                           printed := st.printed ++ (readLine line).2 } : LuaState))
        { packages, printed } = { packages := packages ++ lines.map PkgLine.package, printed } := by
    induction lines with
    | nil => simp
    | cons l lines ih =>
      intro packages printed
      rw [List.map_cons, List.foldl_cons, l.read_text, Option.toList_some, List.append_nil, ih]
      simp
  rw [pkglistread, listText, fileLines_flatMap PkgLine.text fun l _ => l.no_newline, hloop]
  rfl

theorem PkgLine.write_package (l : PkgLine) :
    writePackage l.package l.status = some (l.text ++ ['\n']) := by
  have hflags : (if l.package.flags.length > 0 then " ".toList ++ l.package.flags else []) =
      if l.flags = [] then [] else " ".toList ++ words l.flags := by
    by_cases hf : l.flags = []
    · simp [package, hf, words, List.intercalate]
    · obtain ⟨c, t, hhead, -⟩ := words_head hf l.flags_ok
      simp [package, hf, hhead]
  simp only [writePackage, hflags]
  cases he : l.extraver with
  | none => simp [package, text, he]
  | some extraver =>
    have hlength : extraver.length > 0 := List.length_pos_iff.mpr (l.extraver_ok extraver he).1
    simp [package, text, he, hlength]

theorem pkglistwrite_lines (lines : List PkgLine) :
    pkglistwrite (lines.map PkgLine.package) = some (listText lines) := by
  induction lines with
  | nil => rfl
  | cons l lines ih =>
    simp only [List.map_cons, pkglistwrite, PkgLine.package]
    have hwrite := l.write_package
    simp only [PkgLine.package] at hwrite
    rw [hwrite, Option.bind_some, ih]
    rfl

/-- Reading a package list recovers the fields of each of its lines, in order, and writing the
packages gives the file back. -/
theorem pkglist_round_trip (lines : List PkgLine) (st : LuaState) :
    (pkglistread (listText lines) st).packages = lines.map PkgLine.package ∧
      (pkglistread (listText lines) st).printed = st.printed ∧
      pkglistwrite (pkglistread (listText lines) st).packages = some (listText lines) := by
  rw [pkglistread_listText]
  exact ⟨rfl, rfl, pkglistwrite_lines lines⟩

end T2SDE
