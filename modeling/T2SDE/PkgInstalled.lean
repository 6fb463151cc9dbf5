import Mathlib.Data.List.Forall2
import T2SDE.PkgFilter
import T2SDE.VarRegex

namespace T2SDE

open Text Shell

section Functions

def pushItem (item : Option Char) (bs : List (List (Option Char))) : List (List (Option Char)) :=
  (item :: bs.headD []) :: bs.tail

/-- A regex of `egrep` without its repetitions and brackets: its branches, with none for any character. -/
def branches : Str → List (List (Option Char))
  | [] => [[]]
  | c :: s =>
    if c = '|' then [] :: branches s
    else if c = '.' then pushItem none (branches s)
    else if c = '\\' then
      match s with
      | [] => pushItem (some c) [[]]
      | d :: s => pushItem (some d) (branches s)
    else pushItem (some c) (branches s)

/-- What is left of a text behind a branch. -/
def behindBranch : List (Option Char) → Str → Option Str
  | [], s => some s
  | _ :: _, [] => none
  | item :: b, c :: s => if item = none ∨ item = some c then behindBranch b s else none

/-- `^X.* (pattern) ` -/
def grepLine (pattern line : Str) : Bool :=
  line.head? = some 'X' && line.tail.tails.any fun t =>
    t.head? = some ' ' && (branches pattern).any fun b =>
      (behindBranch b t.tail).any fun rest => rest.head? = some ' '

/-- `${pattern//+/\\+}` -/
def escapePlus (pattern : Str) : Str := replaceAll ['+'] ['\\', '+'] pattern

/-- `pkginstalled`, with the list of the packages and the names that are registered as installed. -/
def pkginstalled (rebuild : Bool) (packages : Str) (registered : Str → Bool) (pattern : Str) : Bool :=
  if !rebuild then (fileLines packages).any (grepLine (escapePlus pattern)) else registered pattern

inductive CheckResult
  | bool (b : Bool)
  | zero
  deriving DecidableEq

/-- The inner loop of `pkgcheck` for a package: what is returned, if anything, and what is printed. -/
def checkNames (pattern mode : Str) (pkg : Package) : List Str → Option CheckResult × List Str
  | [] => (none, [])
  | x :: p =>
    if pkg.aliasName = x then
      if mode = "X".toList then
        if pkg.status = .selected .on then (some (.bool true), []) else checkNames pattern mode pkg p
      else if mode = "O".toList then
        if pkg.status = .selected .off then (some (.bool true), []) else checkNames pattern mode pkg p
      else if mode = ".".toList then (some .zero, [])
      else
        let rest := checkNames pattern mode pkg p
        (rest.1, ("Syntax error near pkgcheck: ".toList ++ pattern ++ " ".toList ++ mode) :: rest.2)
    else checkNames pattern mode pkg p

/-- `pkgcheck`: what it returns and what it prints. -/
def pkgcheck (pattern mode : Str) : List Package → CheckResult × List Str
  | [] => (.bool false, [])
  | pkg :: packages =>
    match checkNames pattern mode pkg (tokens (· == '|') pattern) with
    | (some result, printed) => (result, printed)
    | (none, printed) =>
      let rest := pkgcheck pattern mode packages
      (rest.1, printed ++ rest.2)

end Functions

section Patterns

variable {names : List Str} {n w s pattern line : Str}

/-- A package name, of the characters that mean nothing in a regex, `+` and `.`. -/
def IsName (n : Str) : Prop := n ≠ [] ∧ ∀ c ∈ n, (c.isAlphanum || ['_', '+', '-', '.'].contains c) = true

theorem IsName.item (h : IsName n) {c : Char} (hc :
    (c.isAlphanum || ['_', '+', '-', '.'].contains c) = false) : IsItem c n := by
  refine ⟨h.1, fun hmem => ?_⟩
  rw [h.2 c hmem] at hc
  cases hc

theorem isName_all (h :
    (names.all fun n => n != [] && n.all fun c => c.isAlphanum || ['_', '+', '-', '.'].contains c) = true) :
    ∀ n ∈ names, IsName n := by
  intro n hn
  obtain ⟨hne, hchars⟩ := Bool.and_eq_true_iff.mp (List.all_eq_true.mp h n hn)
  exact ⟨by simpa using hne, List.all_eq_true.mp hchars⟩

theorem IsName.plain (h : IsName n) : ∀ c ∈ n, c ∉ special := by
  intro c hc hspecial
  have hall : special.all (fun c => !(c.isAlphanum || ['_', '+', '-', '.'].contains c)) = true := by decide
  have hno := List.all_eq_true.mp hall c hspecial
  rw [h.2 c hc] at hno
  cases hno

/-- The text agrees with the name, where a dot stands for any character. -/
def Like (n w : Str) : Prop := List.Forall₂ (fun c d => c = '.' ∨ c = d) n w

def nameItems (n : Str) : List (Option Char) := n.map fun c => if c = '.' then none else some c

def escaped (s : Str) : Str := s.flatMap fun c => if c = '+' then ['\\', '+'] else [c]

theorem escapePlus_eq (s : Str) : escapePlus s = escaped s := by
  have honly : ∀ t, Only ['+'] ['+'] t := fun t u _ => covers_literal (not_mem_of_all (by decide)) u
  induction s with
  | nil => rfl
  | cons c s ih =>
    rw [escapePlus] at ih
    by_cases hc : c = '+'
    · subst hc
      have hmatch : replaceAll ['+'] ['\\', '+'] (['+'] ++ s) = _ := replaceAll_match (honly _) (by decide)
      rw [List.singleton_append] at hmatch
      rw [escapePlus, hmatch, ih]
      rfl
    · have hcopy : replaceAll ['+'] ['\\', '+'] (c :: s) = _ := replaceAll_copy (honly (c :: s)) (by
        rw [List.cons_prefix_cons]
        exact fun h => hc h.1.symm)
      rw [escapePlus, hcopy, ih, escaped, escaped, List.flatMap_cons, if_neg hc]
      rfl

theorem behindBranch_iff {rest : Str} : behindBranch (nameItems n) s = some rest ↔ ∃ w,
    s = w ++ rest ∧ Like n w := by
  induction n generalizing s with
  | nil =>
    constructor
    · rintro ⟨⟩
      exact ⟨[], rfl, .nil⟩
    · rintro ⟨w, rfl, hlike⟩
      cases hlike
      rfl
  | cons c n ih =>
    cases s with
    | nil =>
      refine iff_of_false (by simp [nameItems, behindBranch]) ?_
      rintro ⟨w, hs, hlike⟩
      cases hlike
      cases hs
    | cons e s =>
      have hitem : ((if c = '.' then none else some c) = none ∨
        (if c = '.' then none else some c) = some e) ↔ c = '.' ∨ c = e := by
        by_cases hc : c = '.' <;> simp [hc]
      rw [nameItems, List.map_cons, ← nameItems, behindBranch]
      simp only [hitem]
      by_cases hc : c = '.' ∨ c = e
      · rw [if_pos hc, ih]
        constructor
        · rintro ⟨w, rfl, hlike⟩
          exact ⟨e :: w, rfl, .cons hc hlike⟩
        · rintro ⟨w, hs, hlike⟩
          cases hlike with
          | cons hhead htail =>
            obtain ⟨rfl, rfl⟩ := List.cons.inj hs
            exact ⟨_, rfl, htail⟩
      · rw [if_neg hc]
        refine iff_of_false (by simp) ?_
        rintro ⟨w, hs, hlike⟩
        cases hlike with
        | cons hhead htail => exact hc ((List.cons.inj hs).1 ▸ hhead)

theorem branches_bar (s : Str) : branches ('|' :: s) = [] :: branches s := by
  rw [branches.eq_def]
  exact if_pos rfl

theorem branches_escape (c : Char) (s : Str) :
    branches ('\\' :: c :: s) = pushItem (some c) (branches s) := by
  simp [branches]

theorem branches_char {c : Char} (hbar : c ≠ '|') (hslash : c ≠ '\\') (s : Str) :
    branches (c :: s) = pushItem (if c = '.' then none else some c) (branches s) := by
  rw [branches.eq_def]
  by_cases hdot : c = '.' <;> simp [hdot, hbar, hslash]

theorem branches_ne_nil (s : Str) : branches s ≠ [] := by
  fun_cases branches s <;> simp [pushItem]

/-- The characters of a name go in front of the first branch. -/
theorem branches_append (hn : ∀ c ∈ n, c ≠ '|' ∧ c ≠ '\\') (s : Str) :
    branches (escaped n ++ s) = (nameItems n ++ (branches s).headD []) :: (branches s).tail := by
  induction n with
  | nil =>
    obtain ⟨b, bs, hbranches⟩ := List.exists_cons_of_ne_nil (branches_ne_nil s)
    rw [escaped, List.flatMap_nil, List.nil_append, hbranches]
    rfl
  | cons c n ih =>
    have ih := ih fun e he => hn e (List.mem_cons_of_mem c he)
    obtain ⟨hbar, hslash⟩ := hn c List.mem_cons_self
    rw [escaped, List.flatMap_cons, List.append_assoc, ← escaped, nameItems, List.map_cons, ← nameItems]
    by_cases hplus : c = '+'
    · subst hplus
      rw [if_pos rfl, List.cons_append, List.singleton_append, branches_escape, ih]
      rfl
    · rw [if_neg hplus, List.singleton_append, branches_char hbar hslash, ih]
      rfl

theorem branches_names (hne : names ≠ []) (hnames : ∀ n ∈ names, IsName n) :
    branches (escaped (joined '|' names)) = names.map nameItems := by
  obtain ⟨n, names, rfl⟩ := List.exists_cons_of_ne_nil hne
  clear hne
  have hplain : ∀ m ∈ n :: names, ∀ c ∈ m, c ≠ '|' ∧ c ≠ '\\' := by
    intro m hm c hc
    constructor
    · rintro rfl
      exact ((hnames m hm).item (by decide)).2 hc
    · rintro rfl
      exact ((hnames m hm).item (by decide)).2 hc
  induction names generalizing n with
  | nil =>
    have happend := branches_append (hplain n List.mem_cons_self) []
    rw [List.append_nil] at happend
    rw [joined_singleton, happend]
    simp [branches]
  | cons m names ih =>
    have ih := ih m (fun k hk => hnames k (List.mem_cons_of_mem n hk)) fun k hk =>
      hplain k (List.mem_cons_of_mem n hk)
    rw [joined_cons_cons, escaped, List.flatMap_append, ← escaped,
      branches_append (hplain n List.mem_cons_self),
      List.flatMap_cons, if_neg (by decide), ← escaped, List.singleton_append, branches_bar, ih]
    simp

end Patterns

section Fields

variable {names : List Str} {l : PkgLine}

/-- What stands in a line behind the letter, a blank in front of each. -/
def PkgLine.fields (l : PkgLine) : List Str :=
  [l.stages, l.priority, l.repository, l.name, l.ver] ++ l.extraver.toList ++ ["/".toList] ++
    l.categories ++ l.flags

theorem PkgLine.text_fields (l : PkgLine) :
    l.text = l.status.text ++ (l.fields ++ ["0".toList]).flatMap (' ' :: ·) := by
  have hcategories : ' ' :: words l.categories = l.categories.flatMap (' ' :: ·) :=
    cons_joined ' ' l.categories_ne
  have hflags : (if l.flags = [] then [] else " ".toList ++ words l.flags) = l.flags.flatMap (' ' :: ·) := by
    by_cases hne : l.flags = []
    · rw [if_pos hne, hne]
      rfl
    · rw [if_neg hne]
      exact cons_joined ' ' hne
  rw [text, hflags, fields]
  simp only [List.flatMap_append, ← hcategories]
  cases l.extraver <;> simp

theorem space_of_class {c : Char} (h : Lua.percentClass 'S' c = true) : Awk.space c = false := by
  rw [Bool.eq_false_iff]
  intro hspace
  simp only [Awk.space, Bool.or_eq_true, beq_iff_eq] at hspace
  rcases hspace with ((((rfl | rfl) | rfl) | rfl) | rfl) | rfl <;> exact absurd h (by decide)

theorem Plain.word {s : Str} (h : Plain s) : s ≠ [] ∧ ∀ c ∈ s, Awk.space c = false :=
  ⟨h.1, fun c hc => space_of_class (h.2 c hc).1⟩

/-- Characters of a class in which there is no space. -/
theorem word_of_class {p : Char → Bool} {text s : Str} (hp : ∀ c, p c = text.contains c)
    (htext : (text.all fun c => !Awk.space c) = true) (hs : ∀ c ∈ s, p c = true) :
    ∀ c ∈ s, Awk.space c = false := by
  intro c hc
  have hmem : c ∈ text := by
    rw [← List.contains_iff_mem, ← hp]
    exact hs c hc
  simpa using List.all_eq_true.mp htext c hmem

theorem PkgLine.fields_word (l : PkgLine) : ∀ field ∈ l.fields, field ≠ [] ∧ ∀ c ∈ field,
    Awk.space c = false := by
  have htag : ∀ {letter char : Char → Bool} {s}, Tag letter char s → s ≠ [] := by
    rintro letter char s ⟨⟨c, t, rfl, -⟩, -⟩
    exact List.cons_ne_nil c t
  intro field hfield
  simp only [fields, List.mem_append, List.mem_cons, List.not_mem_nil, or_false, Option.mem_toList] at hfield
  rcases hfield with (((hfixed | hextraver) | rfl) | hcategory) | hflag
  · rcases hfixed with rfl | rfl | rfl | rfl | rfl
    · exact ⟨l.stages_ok.1, word_of_class (fun _ => rfl) (by decide) l.stages_ok.2⟩
    · exact ⟨l.priority_ok.1, word_of_class (fun _ => rfl) (by decide) l.priority_ok.2⟩
    · exact l.repository_ok.word
    · exact l.name_ok.word
    · exact l.ver_ok.word
  · exact (l.extraver_ok field hextraver).word
  · exact ⟨by decide, by simp [Awk.space]⟩
  · have hok := l.categories_ok field hcategory
    exact ⟨htag hok, word_of_class (fun _ => rfl) (by decide) hok.2⟩
  · have hok := l.flags_ok field hflag
    exact ⟨htag hok, word_of_class (fun _ => rfl) (by decide) hok.2⟩

theorem PkgLine.no_blank (l : PkgLine) : ∀ field ∈ l.fields ++ ["0".toList], ' ' ∉ field := by
  intro field hfield hblank
  rcases List.mem_append.mp hfield with hfield | hfield
  · have hspace := (l.fields_word field hfield).2 ' ' hblank
    exact absurd hspace (by decide)
  · rw [List.mem_singleton.mp hfield] at hblank
    exact absurd hblank (by decide)

/-- Fields that stand next to each other agree with one of the names. -/
def PkgLine.Found (l : PkgLine) (names : List Str) : Prop :=
  ∃ n ∈ names, ∃ run, run ≠ [] ∧ run <:+: l.fields ∧ Like n (words run)

theorem Like.refl (n : Str) : Like n n := List.forall₂_same.mpr fun _ _ => .inr rfl

theorem PkgLine.found_name {names : List Str} {l : PkgLine} (h : l.name ∈ names) : l.Found names := by
  refine ⟨l.name, h, [l.name], by simp, ?_, ?_⟩
  · exact ⟨[l.stages, l.priority, l.repository], _, by rw [fields]; simp only [List.append_assoc]; rfl⟩
  · have hwords : words [l.name] = l.name := joined_singleton ' ' l.name
    rw [hwords]
    exact .refl l.name

/-- A blank, a text and a blank stand in the line just where the text is that of neighbouring fields. -/
theorem blanks_iff {items : List Str} {w z : Str} (hitems : ∀ x ∈ items ++ [z], ' ' ∉ x) :
    (∃ u v, (items ++ [z]).flatMap (' ' :: ·) = u ++ ' ' :: (w ++ ' ' :: v)) ↔
      ∃ run, run ≠ [] ∧ run <:+: items ∧ w = words run := by
  constructor
  · rintro ⟨u, v, hline⟩
    obtain ⟨l₁, l₂, hsplit, -, hrest⟩ := split_items hitems hline
    rw [hsplit] at hitems
    have hitems := fun x hx => hitems x (List.mem_append_right l₁ hx)
    have hrest : l₂.flatMap (' ' :: ·) = (' ' :: w) ++ ' ' :: v := hrest.symm
    obtain ⟨run, l₃, rfl, hrun, hbehind⟩ := split_items hitems hrest
    have hne : run ≠ [] := by
      rintro rfl
      cases hrun
    rw [← cons_joined ' ' hne] at hrun
    -- the last item is behind the text
    rcases List.eq_nil_or_concat' l₃ with rfl | ⟨l₃, y, rfl⟩
    · cases hbehind
    · rw [← List.append_assoc, ← List.append_assoc] at hsplit
      exact ⟨run, hne, ⟨l₁, l₃, by simpa using (List.append_inj' hsplit rfl).1.symm⟩, (List.cons.inj hrun).2⟩
  · rintro ⟨run, hne, ⟨l₁, l₂, rfl⟩, rfl⟩
    refine ⟨l₁.flatMap (' ' :: ·), joined ' ' (l₂ ++ [z]), ?_⟩
    have hlast := cons_joined ' ' (l := l₂ ++ [z]) (by simp)
    rw [List.append_assoc, List.append_assoc, List.flatMap_append, List.flatMap_append, ← hlast,
      ← cons_joined ' ' hne]
    rfl

/-- The text behind the letter that the regex covers. -/
theorem behindBranch_any {n t : Str} :
    (behindBranch (nameItems n) t).any (fun rest => rest.head? = some ' ') = true ↔
    ∃ w v, t = w ++ ' ' :: v ∧ Like n w := by
  simp only [Option.any_eq_true, decide_eq_true_eq, behindBranch_iff]
  constructor
  · rintro ⟨rest, ⟨w, rfl, hlike⟩, hhead⟩
    obtain ⟨v, rfl⟩ := List.head?_eq_some_iff.mp hhead
    exact ⟨w, v, rfl, hlike⟩
  · rintro ⟨w, v, rfl, hlike⟩
    exact ⟨' ' :: v, ⟨w, rfl, hlike⟩, rfl⟩

theorem grepLine_iff (hne : names ≠ []) (hnames : ∀ n ∈ names, IsName n) (l : PkgLine) :
    grepLine (escapePlus (joined '|' names)) l.text = true ↔ l.status = .on ∧ l.Found names := by
  rw [grepLine, escapePlus_eq, branches_names hne hnames, l.text_fields]
  cases l.status with
  | off => simp [Selection.text]
  | on =>
    simp only [Selection.text, List.any_map, List.any_eq_true, Bool.and_eq_true, decide_eq_true_eq,
      List.mem_tails,
      Function.comp_apply, behindBranch_any, true_and]
    constructor
    · rintro ⟨-, t, ⟨u, hline⟩, hhead, n, hn, w, v, hbehind, hlike⟩
      obtain ⟨t, rfl⟩ := List.head?_eq_some_iff.mp hhead
      obtain ⟨run, hrun, hinfix, rfl⟩ :=
        (blanks_iff l.no_blank).mp ⟨u, v, by rw [← hbehind]; exact hline.symm⟩
      exact ⟨n, hn, run, hrun, hinfix, hlike⟩
    · rintro ⟨n, hn, run, hrun, hinfix, hlike⟩
      obtain ⟨u, v, hline⟩ := (blanks_iff l.no_blank).mpr ⟨run, hrun, hinfix, rfl⟩
      exact ⟨rfl, _, ⟨u, hline.symm⟩, rfl, n, hn, words run, v, rfl, hlike⟩

end Fields

section Agreement

variable {names : List Str} {lines : List PkgLine}

/-- Names are read back from a list of them. -/
theorem tokens_names {d : Char} (hd : (d.isAlphanum || ['_', '+', '-', '.'].contains d) = false)
    (hnames : ∀ n ∈ names, IsName n) : tokens (· == d) (joined d names) = names := by
  refine tokens_intercalate (by simp) fun n hn => ⟨(hnames n hn).1, fun c hc => ?_⟩
  rw [beq_eq_false_iff_ne]
  rintro rfl
  exact ((hnames n hn).item hd).2 hc

theorem checkNames_line (pattern : Str) (l : PkgLine) (p : List Str) :
    checkNames pattern "X".toList l.package p =
    (if l.status = .on ∧ l.name ∈ p then some (.bool true) else none, []) := by
  induction p with
  | nil => simp [checkNames]
  | cons x p ih =>
    have hstatus : l.package.status = .selected .on ↔ l.status = .on := by simp [PkgLine.package]
    rw [checkNames, ih, if_pos rfl]
    simp only [hstatus, List.mem_cons, show l.package.aliasName = l.name from rfl]
    by_cases hx : l.name = x <;> by_cases hon : l.status = .on <;> simp [hx, hon]

/-- A line selects a package of one of the names. -/
def Selected (lines : List PkgLine) (names : List Str) : Prop := ∃ l ∈ lines, l.status = .on ∧ l.name ∈ names

theorem pkgcheck_lines (hnames : ∀ n ∈ names, IsName n) :
    (pkgcheck (joined '|' names) "X".toList (lines.map PkgLine.package)).1 = .bool true ↔
    Selected lines names := by
  induction lines with
  | nil => simp [pkgcheck, Selected]
  | cons l lines ih =>
    rw [List.map_cons, pkgcheck, tokens_names (by decide) hnames, checkNames_line]
    by_cases hl : l.status = .on ∧ l.name ∈ names
    · rw [if_pos hl]
      exact iff_of_true rfl ⟨l, List.mem_cons_self, hl⟩
    · rw [if_neg hl]
      exact ih.trans (by simp [Selected, hl])

theorem pkginstalled_lines (hne : names ≠ []) (hnames : ∀ n ∈ names, IsName n) (registered : Str → Bool) :
    pkginstalled false (listText lines) registered (joined '|' names) = true ↔
      ∃ l ∈ lines, l.status = .on ∧ l.Found names := by
  rw [pkginstalled, Bool.not_false, if_pos rfl, listText, fileLines_flatMap PkgLine.text fun l _ =>
    l.no_newline]
  simp [List.any_map, List.any_eq_true, grepLine_iff hne hnames]

/-- Both agree with the name field, unless the regex is found elsewhere in the lines of packages
that are selected. -/
theorem pkginstalled_pkgcheck_iff (hne : names ≠ []) (hnames : ∀ n ∈ names, IsName n)
    (registered : Str → Bool) (st : LuaState) :
    ((pkginstalled false (listText lines) registered (joined '|' names) = true ↔ ∃ l ∈ lines,
    l.status = .on ∧ l.name ∈ names) ∧
      (pkginstalled false (listText lines) registered (joined '|' names) = true ↔
        (pkgcheck (joined '|' names) "X".toList (pkglistread (listText lines) st).packages).1 = .bool true)) ↔
    (∃ l ∈ lines, l.status = .on ∧ l.name ∈ names) ∨ ∀ l ∈ lines, l.status = .on → ¬l.Found names := by
  have hcheck : _ ↔ Selected lines names := pkgcheck_lines hnames
  rw [pkglistread_listText, hcheck, Selected, and_self, pkginstalled_lines hne hnames]
  constructor
  · intro h
    by_cases hselected : ∃ l ∈ lines, l.status = .on ∧ l.name ∈ names
    · exact .inl hselected
    · exact .inr fun l hl hon hfound => hselected (h.mp ⟨l, hl, hon, hfound⟩)
  · rintro (⟨l, hl, hon, hname⟩ | hnone)
    · exact iff_of_true ⟨l, hl, hon, l.found_name hname⟩ ⟨l, hl, hon, hname⟩
    · refine ⟨fun ⟨l, hl, hon, hfound⟩ => absurd hfound (hnone l hl hon), fun ⟨l, hl, hon, hname⟩ => ?_⟩
      exact ⟨l, hl, hon, l.found_name hname⟩

theorem pkginstalled_pkgcheck_gcc :
    ((pkginstalled false (listText [gccLine]) (fun _ => false) (joined '|' ["gcc".toList, "g++".toList]) =
    true ↔
        ∃ l ∈ [gccLine], l.status = .on ∧ l.name ∈ ["gcc".toList, "g++".toList]) ∧
      (pkginstalled false (listText [gccLine]) (fun _ =>
        false) (joined '|' ["gcc".toList, "g++".toList]) = true ↔
        (pkgcheck (joined '|' ["gcc".toList, "g++".toList]) "X".toList
          (pkglistread (listText [gccLine]) ⟨[], []⟩).packages).1 = .bool true)) ↔
    (∃ l ∈ [gccLine], l.status = .on ∧ l.name ∈ ["gcc".toList, "g++".toList]) ∨
      ∀ l ∈ [gccLine], l.status = .on → ¬l.Found ["gcc".toList, "g++".toList] := by
  exact pkginstalled_pkgcheck_iff (by simp) (isName_all (by decide)) (fun _ => false) ⟨[], []⟩

/-- A package of the repository `perl`. -/
def cpanLine : PkgLine :=
  { gccLine with
    repository := "perl".toList
    name := "cpan".toList
    repository_ok := by decide
    name_ok := by decide }

/-- `perl` is taken for installed where a package of that repository is selected. -/
theorem pkginstalled_repository :
    pkginstalled false (listText [cpanLine]) (fun _ => false) "perl".toList = true ∧
      (¬∃ l ∈ [cpanLine], l.status = .on ∧ l.name = "perl".toList) ∧
      (pkgcheck "perl".toList "X".toList (pkglistread (listText [cpanLine]) ⟨[], []⟩).packages).1 =
      .bool false := by
  refine ⟨by decide +kernel, ?_, ?_⟩
  · rintro ⟨l, hl, -, hname⟩
    rw [List.mem_singleton.mp hl] at hname
    exact absurd hname (by decide)
  · rw [pkglistread_listText]
    decide +kernel

end Agreement

end T2SDE
