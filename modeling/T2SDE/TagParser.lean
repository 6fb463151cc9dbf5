import Mathlib.Data.List.Pairwise
import T2SDE.DescParsers

namespace T2SDE.DescParsers

open Text

def Tag.names (t : Tag) : List Str := [t.shortName, t.longName, t.name]

/-- The registered tags of a parser. Their names have no blanks, and no two tags share one. -/
structure TagParser where
  tags : List Tag
  plain : ∀ t ∈ tags, ∀ name ∈ t.names, ' ' ∉ name
  distinct : tags.Pairwise fun t u => t ≠ u ∧ ∀ name ∈ t.names, name ≠ [] → name ∉ u.names

theorem packageTags_plain : ∀ t ∈ packageTags, ∀ name ∈ t.names, ' ' ∉ name := by decide +kernel

theorem packageTags_distinct :
    packageTags.Pairwise fun t u => t ≠ u ∧ ∀ name ∈ t.names, name ≠ [] → name ∉ u.names := by decide +kernel

def package : TagParser := ⟨packageTags, packageTags_plain, packageTags_distinct⟩

/-- The tags of `CacheFile`. -/
def cacheTags : List Tag :=
  [.of "COPY" "" "", .of "TIMESTAMP" "" "", .of "CONFIG-ID" "" "", .of "ROCKVER" "" "", .of "LOGS" "" "",
    .of "BUILDTIME" "" "", .of "SIZE" "" "", .of "DEP" "" "", .of "0-ERROR" "" "", .of "1-ERROR" "" "",
    .of "2-ERROR" "" "", .of "3-ERROR" "" "", .of "4-ERROR" "" "", .of "5-ERROR" "" "", .of "6-ERROR" "" "",
    .of "7-ERROR" "" "", .of "8-ERROR" "" "", .of "9-ERROR" "" ""]

theorem cacheTags_plain : ∀ t ∈ cacheTags, ∀ name ∈ t.names, ' ' ∉ name := by decide +kernel

theorem cacheTags_distinct :
    cacheTags.Pairwise fun t u => t ≠ u ∧ ∀ name ∈ t.names, name ≠ [] → name ∉ u.names := by decide +kernel

def cacheFile : TagParser := ⟨cacheTags, cacheTags_plain, cacheTags_distinct⟩

inductive LineError
  | garbage
  | noTag
  | unknownTag (tag : Str)
  deriving DecidableEq

structure Report where
  linenr : Nat
  error : LineError
  line : Str

/-- What is printed for an error in a file. -/
def Report.message (file : Str) (r : Report) : Str :=
  let place := file ++ ":".toList ++ digits r.linenr
  let quoted := "\n  '".toList ++ r.line ++ "'\n".toList
  match r.error with
  | .garbage => place ++ ": only garbage in this line.".toList ++ quoted
  | .noTag => place ++ ": this line contains no tag.".toList ++ quoted
  | .unknownTag tag => place ++ ": Unknown tag '".toList ++ tag ++ "'\n".toList

/-- Empty lines and comments. -/
def skipped (line : Str) : Bool := line.head? == none || line.head? == some '#' || line.head? == some ' '

/-- The errors of a line, and the tag that its value is appended to. -/
structure LineResult where
  errors : List LineError
  tag : Option (Tag × Str)

def TagParser.parseLine (p : TagParser) (line : Str) : LineResult :=
  if skipped line then ⟨[], none⟩
  else
    let garbage := if line.length < 3 then [LineError.garbage] else []
    match splitLine line with
    | none => ⟨garbage ++ [.noTag], none⟩
    | some (tag, value) =>
      match p.tags.find? (·.called tag) with
      | some t => ⟨garbage, some (t, value)⟩
      | none => ⟨garbage ++ [.unknownTag tag], none⟩

structure ParseState where
  linenr : Nat
  values : Tag → Str
  reports : List Report

def append (values : Tag → Str) (tag : Option (Tag × Str)) : Tag → Str :=
  match tag with
  | some (t, value) => Function.update values t (values t ++ (value ++ ['\n']))
  | none => values

def TagParser.handle (p : TagParser) (s : ParseState) (line : Str) : ParseState :=
  { linenr := s.linenr + 1
    values := append s.values (p.parseLine line).tag
    reports := s.reports ++ (p.parseLine line).errors.map fun error => ⟨s.linenr, error, line⟩ }

/-- The values of the tags behind `Parse`, what it has printed, and what it returns. -/
structure ParseResult where
  values : Tag → Str
  reports : List Report
  ok : Bool

/-- `TagParser::Parse`, for the text of the file or for a file that can not be opened. -/
def TagParser.parse (p : TagParser) (values : Tag → Str) : Option Str → ParseResult
  | none => ⟨values, [], false⟩
  | some text =>
    let s := readLoop p.handle (text.length + 3) { rest := text, eof := false, fail := false } []
      { linenr := 0, values, reports := [] }
    ⟨s.values, s.reports, s.reports.isEmpty⟩

/-- The line begins with a name of the tag in brackets, and has a blank or nothing behind it. -/
def Tag.heads (t : Tag) (line : Str) : Bool :=
  t.names.any fun name => name != [] && ('[' :: (name ++ [']'])).isPrefixOf line &&
    (line.drop (name.length + 2)).head?.all (· == ' ')

/-- The value of a line: what is behind its first word. -/
def lineValue (line : Str) : Str := line.dropWhile (· != ' ')

/-- A line that is neither blank nor a comment and has no tag of the parser. -/
def TagParser.Wrong (p : TagParser) (line : Str) : Prop :=
  skipped line = false ∧ ∀ t ∈ p.tags, t.heads line = false

/-- A line whose first word is a pair of brackets with nothing in it. -/
def emptyTag (line : Str) : Bool := line.takeWhile (· != ' ') == "[]".toList

section Line

variable {p : TagParser} {t : Tag} {line tag value : Str}

theorem called_iff : t.called tag = true ↔ tag ∈ t.names := by
  simp [Tag.called, Tag.names, or_assoc]

theorem heads_iff : t.heads line = true ↔ ∃ name ∈ t.names, name ≠ [] ∧
    ∃ value, line = '[' :: (name ++ ']' :: value) ∧ (value = [] ∨ value.head? = some ' ') := by
  have hlast (value : Str) : value.head?.all (· == ' ') = true ↔ value = [] ∨ value.head? = some ' ' := by
    cases value <;> simp
  rw [Tag.heads, List.any_eq_true]
  constructor
  · rintro ⟨name, hname, h⟩
    simp only [Bool.and_eq_true, bne_iff_ne] at h
    obtain ⟨⟨hne, hpre⟩, hvalue⟩ := h
    obtain ⟨value, rfl⟩ := List.isPrefixOf_iff_prefix.mp hpre
    refine ⟨name, hname, hne, value, by simp, (hlast value).mp ?_⟩
    simpa using hvalue
  · rintro ⟨name, hname, hne, value, rfl, hvalue⟩
    refine ⟨name, hname, ?_⟩
    simp only [Bool.and_eq_true, bne_iff_ne]
    exact ⟨⟨hne, List.isPrefixOf_iff_prefix.mpr ⟨value, by simp⟩⟩, by simpa using (hlast value).mpr hvalue⟩

theorem takeWhile_head (htag : ' ' ∉ tag) (hvalue : value = [] ∨ value.head? = some ' ') :
    ('[' :: (tag ++ ']' :: value)).takeWhile (· != ' ') = '[' :: (tag ++ [']']) ∧
      lineValue ('[' :: (tag ++ ']' :: value)) = value := by
  have hall : ∀ c ∈ '[' :: (tag ++ [']']), (c != ' ') = true := by
    intro c hc
    simp only [List.mem_cons, List.mem_append, List.not_mem_nil, or_false] at hc
    rcases hc with rfl | hc | rfl
    · decide
    · simpa using fun h : c = ' ' => htag (h ▸ hc)
    · decide
  have hline : '[' :: (tag ++ ']' :: value) = '[' :: (tag ++ [']']) ++ value := by simp
  have hstop : value.takeWhile (· != ' ') = [] ∧ value.dropWhile (· != ' ') = value := by
    rcases hvalue with rfl | hvalue
    · exact ⟨rfl, rfl⟩
    · obtain ⟨rest, rfl⟩ := List.head?_eq_some_iff.mp hvalue
      exact ⟨rfl, rfl⟩
  rw [lineValue, hline, List.takeWhile_append_of_pos hall, List.dropWhile_append_of_pos hall, hstop.1,
    hstop.2]
  simp

/-- A line is a word without blanks, and nothing or a blank behind it. -/
theorem first_word (line : Str) : ∃ word behind, line = word ++ behind ∧ ' ' ∉ word ∧
    (behind = [] ∨ behind.head? = some ' ') ∧ line.takeWhile (· != ' ') = word := by
  obtain ⟨word, behind, rfl, hword, hbehind⟩ := exists_run (· != ' ') line
  refine ⟨word, behind, rfl, fun h => by simpa using hword ' ' h, ?_⟩
  rw [List.takeWhile_append_of_pos hword]
  cases behind with
  | nil => simp
  | cons c behind =>
    obtain rfl : c = ' ' := by simpa using hbehind c behind rfl
    simp

/-- The lines that have a tag are those with a bracket at both ends of the first word. -/
theorem splitLine_iff : splitLine line = some (tag, value) ↔
    line = '[' :: (tag ++ ']' :: value) ∧ ' ' ∉ tag ∧ (value = [] ∨ value.head? = some ' ') := by
  constructor
  · intro h
    rw [splitLine] at h
    split_ifs at h with hskip hbracket
    obtain ⟨htag, hvalue⟩ := Prod.mk.inj (Option.some.inj h)
    rw [not_or, not_not, not_not] at hbracket
    obtain ⟨hhead, hend⟩ := hbracket
    obtain ⟨word, behind, rfl, hword, hstop, htake⟩ := first_word line
    have hne : word ≠ [] := by
      rintro rfl
      rcases hstop with rfl | hstop
      · cases hhead
      · rw [List.nil_append, hstop] at hhead
        exact absurd (Option.some.inj hhead) (by decide)
    obtain ⟨c, word, rfl⟩ := List.exists_cons_of_ne_nil hne
    obtain rfl : c = '[' := by simpa using hhead
    rw [htake] at htag hvalue hend
    -- the bracket at the end is not the one at the start
    rcases List.eq_nil_or_concat word with rfl | ⟨name, d, rfl⟩
    · simp at hend
    · simp only [List.concat_eq_append] at *
      obtain rfl : d = ']' := by simpa using hend
      obtain rfl : name = tag := by simpa using htag
      obtain rfl : behind = value := by simpa using hvalue
      refine ⟨by simp, fun hmem => ?_, hstop⟩
      exact hword (by simp [hmem])
  · rintro ⟨rfl, htag, hvalue⟩
    obtain ⟨hword, _⟩ := takeWhile_head htag hvalue
    have hlen : ('[' :: (tag ++ [']'])).length = tag.length + 2 := by simp
    rw [splitLine, hword, hlen, if_neg (by simp), if_neg (by simp)]
    simp

theorem split_of_emptyTag (h : emptyTag line = true) :
    ∃ behind, line = '[' :: ']' :: behind ∧ splitLine line = some ([], behind) ∧ lineValue line = behind := by
  obtain ⟨word, behind, rfl, _, hstop, htake⟩ := first_word line
  obtain rfl : word = "[]".toList := by simpa [emptyTag, htake] using h
  exact ⟨behind, rfl, splitLine_iff.mpr ⟨rfl, List.not_mem_nil, hstop⟩,
    (takeWhile_head List.not_mem_nil hstop).2⟩

theorem TagParser.eq_of_name {u : Tag} (ht : t ∈ p.tags) (hu : u ∈ p.tags) {name : Str} (hne : name ≠ [])
    (hname : name ∈ t.names) (hother : name ∈ u.names) : t = u := by
  by_contra h
  have hsymm : Std.Symm fun t u : Tag => t ≠ u ∧ ∀ name ∈ t.names, name ≠ [] → name ∉ u.names :=
    ⟨fun _ _ hr => ⟨hr.1.symm, fun name hu hne ht => hr.2 name ht hne hu⟩⟩
  exact (p.distinct.forall ht hu h).2 name hname hne hother

theorem find_called (h : p.tags.find? (·.called tag) = some t) : t ∈ p.tags ∧ tag ∈ t.names := by
  have hcalled := List.find?_some h
  exact ⟨List.mem_of_find?_eq_some h, called_iff.mp hcalled⟩

theorem parseLine_heads (ht : t ∈ p.tags) (h : t.heads line = true) :
    p.parseLine line = ⟨[], some (t, lineValue line)⟩ := by
  obtain ⟨name, hname, hne, value, rfl, hvalue⟩ := heads_iff.mp h
  have hplain := p.plain t ht name hname
  have hsplit := splitLine_iff.mpr ⟨rfl, hplain, hvalue⟩
  have hlen : ¬('[' :: (name ++ ']' :: value)).length < 3 := by
    have hpos := List.length_pos_iff.mpr hne
    simp only [List.length_cons, List.length_append]
    omega
  have hskip : skipped ('[' :: (name ++ ']' :: value)) = false := rfl
  have hfind : p.tags.find? (·.called name) = some t := by
    cases hf : p.tags.find? (·.called name) with
    | none => exact absurd (called_iff.mpr hname) (by simpa using List.find?_eq_none.mp hf t ht)
    | some u =>
      obtain ⟨hu, hother⟩ := find_called hf
      rw [p.eq_of_name ht hu hne hname hother]
  rw [TagParser.parseLine, hskip, (takeWhile_head hplain hvalue).2]
  simp only [Bool.false_eq_true, if_false, hsplit, hfind, if_neg hlen]

theorem heads_of_called (ht : tag ∈ t.names) (hne : tag ≠ []) (hsplit : splitLine line = some (tag, value)) :
    t.heads line = true := by
  obtain ⟨hline, _, hvalue⟩ := splitLine_iff.mp hsplit
  exact heads_iff.mpr ⟨tag, ht, hne, value, hline, hvalue⟩

theorem emptyTag_of_split (hsplit : splitLine line = some ([], value)) : emptyTag line = true := by
  obtain ⟨rfl, htag, hvalue⟩ := splitLine_iff.mp hsplit
  rw [emptyTag, (takeWhile_head htag hvalue).1]
  rfl

/-- A value goes to a tag that has the name, or to one that leaves a name empty. -/
theorem parseLine_tag (h : (p.parseLine line).tag = some (t, value)) :
    t ∈ p.tags ∧ value = lineValue line ∧ (t.heads line = true ∨ emptyTag line = true ∧ [] ∈ t.names) := by
  rw [TagParser.parseLine] at h
  split at h
  · cases h
  · cases hsplit : splitLine line with
    | none => simp [hsplit] at h
    | some found =>
      obtain ⟨tag, v⟩ := found
      cases hfind : p.tags.find? (·.called tag) with
      | none => simp [hsplit, hfind] at h
      | some u =>
        simp only [hsplit, hfind, Option.some.injEq, Prod.mk.injEq] at h
        obtain ⟨rfl, rfl⟩ := h
        obtain ⟨hu, hname⟩ := find_called hfind
        obtain ⟨rfl, htag, hvalue⟩ := splitLine_iff.mp hsplit
        refine ⟨hu, (takeWhile_head htag hvalue).2.symm, ?_⟩
        by_cases hne : tag = []
        · subst hne
          exact .inr ⟨emptyTag_of_split hsplit, hname⟩
        · exact .inl (heads_of_called hname hne hsplit)

theorem wrong_of_errors (h : (p.parseLine line).errors ≠ []) : p.Wrong line := by
  constructor
  · by_contra hskip
    rw [Bool.not_eq_false] at hskip
    exact h (by rw [TagParser.parseLine, if_pos hskip])
  · intro t ht
    by_contra hheads
    exact h (by rw [parseLine_heads ht (by simpa using hheads)])

theorem errors_of_wrong (h : p.Wrong line) (hempty : emptyTag line = true → ∀ t ∈ p.tags, [] ∉ t.names) :
    (p.parseLine line).errors ≠ [] := by
  rw [TagParser.parseLine, h.1]
  simp only [Bool.false_eq_true, if_false]
  cases hsplit : splitLine line with
  | none => simp
  | some found =>
    obtain ⟨tag, value⟩ := found
    cases hfind : p.tags.find? (·.called tag) with
    | none => simp [hfind]
    | some t =>
      obtain ⟨ht, hname⟩ := find_called hfind
      by_cases hne : tag = []
      · subst hne
        exact absurd hname (hempty (emptyTag_of_split hsplit) t ht)
      · exact absurd (heads_of_called hname hne hsplit) (by simp [h.2 t ht])

end Line

/-- The value of the line goes to the tag. -/
def TagParser.goes (p : TagParser) (t : Tag) (line : Str) : Bool :=
  (p.parseLine line).tag == some (t, lineValue line)

section Loop

variable {p : TagParser} {t : Tag}

theorem append_values (values : Tag → Str) (line : Str) :
    append values (p.parseLine line).tag t =
      values t ++ if p.goes t line then lineValue line ++ ['\n'] else [] := by
  cases htag : (p.parseLine line).tag with
  | none => simp [append, TagParser.goes, htag]
  | some found =>
    obtain ⟨u, value⟩ := found
    obtain ⟨_, rfl, _⟩ := parseLine_tag htag
    by_cases hu : u = t
    · subst hu
      simp [append, TagParser.goes, htag]
    · simp [append, TagParser.goes, htag, hu, Function.update_of_ne (Ne.symm hu)]

theorem foldl_handle_values (lines : List Str) (s : ParseState) :
    (lines.foldl p.handle s).values t =
      s.values t ++ (lines.filter (p.goes t)).flatMap fun line => lineValue line ++ ['\n'] := by
  induction lines generalizing s with
  | nil => simp
  | cons line lines ih =>
    rw [List.foldl_cons, ih, TagParser.handle]
    simp only [append_values]
    by_cases hgoes : p.goes t line = true
    · simp [hgoes]
    · simp [hgoes]

theorem foldl_handle_reports (lines : List Str) (s : ParseState) :
    (lines.foldl p.handle s).reports = s.reports ++ (lines.zipIdx s.linenr).flatMap fun numbered =>
      (p.parseLine numbered.1).errors.map fun error => ⟨numbered.2, error, numbered.1⟩ := by
  induction lines generalizing s with
  | nil => simp
  | cons line lines ih =>
    rw [List.foldl_cons, ih, List.zipIdx_cons, List.flatMap_cons, TagParser.handle, List.append_assoc]

end Loop

section Filter

variable {α : Type} {p q : α → Bool} {g : α → Str} {xs : List α} {more : Str}

theorem length_filter_split (himp : ∀ x ∈ xs, p x = true → q x = true) :
    ((xs.filter q).flatMap g).length =
      ((xs.filter p).flatMap g).length + ((xs.filter fun x => q x && !p x).flatMap g).length := by
  induction xs with
  | nil => rfl
  | cons x xs ih =>
    have hrest := ih fun y hy => himp y (List.mem_cons_of_mem x hy)
    by_cases hp : p x = true
    · have hq := himp x List.mem_cons_self hp
      have hextra : (x :: xs).filter (fun y => q y && !p y) = xs.filter fun y => q y && !p y := by simp [hp]
      rw [List.filter_cons_of_pos hq, List.filter_cons_of_pos hp, hextra]
      simp only [List.flatMap_cons, List.length_append, hrest]
      omega
    · rw [List.filter_cons_of_neg hp]
      by_cases hq : q x = true
      · have hextra : (x :: xs).filter (fun y => q y && !p y) = x :: xs.filter fun y => q y && !p y := by
          simp [hp, hq]
        rw [List.filter_cons_of_pos hq, hextra]
        simp only [List.flatMap_cons, List.length_append, hrest]
        omega
      · have hextra : (x :: xs).filter (fun y => q y && !p y) = xs.filter fun y => q y && !p y := by simp [hq]
        rw [List.filter_cons_of_neg hq, hextra, hrest]

/-- Texts of more elements are longer. -/
theorem filter_of_flatMap_eq (himp : ∀ x ∈ xs, p x = true → q x = true) (hne : ∀ x, g x ≠ [])
    (h : (xs.filter q).flatMap g ++ more = (xs.filter p).flatMap g) :
    more = [] ∧ ∀ x ∈ xs, q x = true → p x = true := by
  have hlen := congrArg List.length h
  rw [List.length_append, length_filter_split himp] at hlen
  have hmore : more = [] := List.length_eq_zero_iff.mp (by omega)
  have hextra : (xs.filter fun x => q x && !p x).flatMap g = [] := List.length_eq_zero_iff.mp (by omega)
  refine ⟨hmore, fun x hx hq => ?_⟩
  by_contra hp
  have hmem : x ∈ xs.filter fun x => q x && !p x := List.mem_filter.mpr ⟨hx, by simpa [hq] using hp⟩
  exact hne x (List.flatMap_eq_nil_iff.mp hextra x hmem)

end Filter

/-- Each value goes to the tag that has the name of its line, every other line that is neither blank nor a
comment is reported, and the result is true where there is none. -/
structure Dispatched (p : TagParser) (text : Str) (values : Tag → Str) (result : ParseResult) : Prop where
  values : ∀ t ∈ p.tags, result.values t =
    values t ++ ((fileLines text).filter t.heads).flatMap fun line => lineValue line ++ ['\n']
  reported : ∀ i line, (fileLines text)[i]? = some line → p.Wrong line →
    ∃ r ∈ result.reports, r.linenr = i ∧ r.line = line
  ok : result.ok = true ↔ ∀ line ∈ fileLines text, ¬p.Wrong line

section Parse

variable {p : TagParser} {t : Tag}

theorem parse_values (values : Tag → Str) (text : Str) :
    (p.parse values (some text)).values t = values t ++
      ((fileLines text ++ [leftOver text]).filter (p.goes t)).flatMap fun line =>
      lineValue line ++ ['\n'] := by
  rw [TagParser.parse, readLoop_eq p.handle le_rfl]
  exact foldl_handle_values _ _

theorem parse_reports (values : Tag → Str) (text : Str) :
    (p.parse values (some text)).reports = (fileLines text ++ [leftOver text]).zipIdx.flatMap fun numbered =>
      (p.parseLine numbered.1).errors.map fun error => ⟨numbered.2, error, numbered.1⟩ := by
  rw [TagParser.parse, readLoop_eq p.handle le_rfl]
  exact foldl_handle_reports _ _

theorem parse_ok (values : Tag → Str) (text : Str) : (p.parse values (some text)).ok = true ↔
    ∀ line ∈ fileLines text ++ [leftOver text], (p.parseLine line).errors = [] := by
  have hok : (p.parse values (some text)).ok = (p.parse values (some text)).reports.isEmpty := rfl
  rw [hok, parse_reports, List.isEmpty_iff, List.flatMap_eq_nil_iff]
  constructor
  · intro h line hline
    obtain ⟨i, hi⟩ := List.mem_iff_getElem?.mp hline
    have hnumbered := h (line, i) (List.mem_zipIdx_iff_getElem?.mpr hi)
    exact List.map_eq_nil_iff.mp hnumbered
  · intro h numbered hnumbered
    have hi := List.mem_zipIdx_iff_getElem?.mp hnumbered
    rw [h numbered.1 (List.mem_of_getElem? hi), List.map_nil]

theorem goes_of_heads {line : Str} (ht : t ∈ p.tags) (h : t.heads line = true) : p.goes t line = true := by
  rw [TagParser.goes, parseLine_heads ht h]
  exact beq_self_eq_true _

theorem goes_cases {line : Str} (h : p.goes t line = true) :
    t.heads line = true ∨ emptyTag line = true ∧ [] ∈ t.names :=
  (parseLine_tag (by simpa [TagParser.goes] using h)).2.2

/-- A line with an empty tag goes to a tag of which it does not have the name. -/
theorem goes_of_emptyTag {line : Str} (h : emptyTag line = true) (ht : t ∈ p.tags) (hname : [] ∈ t.names) :
    ∃ u ∈ p.tags, p.goes u line = true ∧ u.heads line = false := by
  obtain ⟨behind, rfl, hsplit, hvalue⟩ := split_of_emptyTag h
  cases hfind : p.tags.find? (·.called []) with
  | none => exact absurd (called_iff.mpr hname) (by simpa using List.find?_eq_none.mp hfind t ht)
  | some u =>
    refine ⟨u, (find_called hfind).1, ?_, ?_⟩
    · have hskip : skipped ('[' :: ']' :: behind) = false := rfl
      rw [TagParser.goes, TagParser.parseLine, hskip, hvalue]
      simp only [Bool.false_eq_true, if_false, hsplit, hfind, beq_self_eq_true]
    · by_contra hheads
      obtain ⟨name, hmem, hne, value, hline, hend⟩ := heads_iff.mp (by simpa using hheads)
      have hother := splitLine_iff.mpr ⟨hline, p.plain u (find_called hfind).1 name hmem, hend⟩
      have hsame := hsplit.symm.trans hother
      rw [Option.some.injEq, Prod.mk.injEq] at hsame
      exact hne hsame.1.symm

theorem goes_nil (p : TagParser) (t : Tag) : p.goes t [] = false := rfl

theorem leftOver_cases (text : Str) : leftOver text = [] ∨ leftOver text ∈ fileLines text := by
  rcases again_cases text with ⟨_, hleft⟩ | hagain
  · exact .inl hleft
  · exact .inr (mem_again (by simp [hagain]))

/-- The tags are dispatched as long as no line has an empty tag and the last line, where its end is missing,
has no tag of the parser. -/
theorem parse_dispatched_iff (p : TagParser) (text : Str) (values : Tag → Str) :
    Dispatched p text values (p.parse values (some text)) ↔
      (∀ line ∈ fileLines text, emptyTag line = true → ∀ t ∈ p.tags, [] ∉ t.names) ∧
        ∀ line ∈ again text, ∀ t ∈ p.tags, t.heads line = false := by
  have hlonger : ∀ t ∈ p.tags, ∀ line ∈ fileLines text, t.heads line = true → p.goes t line = true :=
    fun t ht line _ => goes_of_heads ht
  constructor
  · intro h
    have hsplit : ∀ t ∈ p.tags,
        ([leftOver text].filter (p.goes t)).flatMap (fun line => lineValue line ++ ['\n']) = [] ∧
          ∀ line ∈ fileLines text, p.goes t line = true → t.heads line = true := by
      intro t ht
      have hvalues := h.values t ht
      rw [parse_values, List.append_cancel_left_eq, List.filter_append, List.flatMap_append] at hvalues
      exact filter_of_flatMap_eq (hlonger t ht) (by simp) hvalues
    refine ⟨fun line hline hempty t ht hname => ?_, fun line hline t ht => ?_⟩
    · obtain ⟨u, hu, hgoes, hheads⟩ := goes_of_emptyTag hempty ht hname
      rw [(hsplit u hu).2 line hline hgoes] at hheads
      cases hheads
    · by_contra hheads
      rcases again_cases text with ⟨hagain, _⟩ | hagain
      · simp [hagain] at hline
      · rw [hagain, List.mem_singleton] at hline
        subst hline
        have hgoes := goes_of_heads ht (by simpa using hheads)
        have hnone := (hsplit t ht).1
        simp [hgoes] at hnone
  · rintro ⟨hempty, hlast⟩
    have hsame : ∀ t ∈ p.tags, ∀ line ∈ fileLines text, p.goes t line = t.heads line := by
      intro t ht line hline
      cases hgoes : p.goes t line with
      | false =>
        by_contra hheads
        rw [goes_of_heads ht (by simpa using Ne.symm hheads)] at hgoes
        cases hgoes
      | true =>
        rcases goes_cases hgoes with hheads | ⟨htag, hname⟩
        · exact hheads.symm
        · exact absurd hname (hempty line hline htag t ht)
    have hleft : ∀ t ∈ p.tags, p.goes t (leftOver text) = false := by
      intro t ht
      rcases again_cases text with ⟨_, hleft⟩ | hagain
      · rw [hleft, goes_nil]
      · have hmem : leftOver text ∈ again text := by simp [hagain]
        rw [hsame t ht _ (mem_again hmem), hlast _ hmem t ht]
    have herrors : ∀ line ∈ fileLines text, (p.parseLine line).errors = [] ↔ ¬p.Wrong line := by
      intro line hline
      constructor
      · exact fun hnone hwrong => errors_of_wrong hwrong (hempty line hline) hnone
      · intro hright
        by_contra herror
        exact hright (wrong_of_errors herror)
    refine ⟨fun t ht => ?_, fun i line hi hwrong => ?_, ?_⟩
    · rw [parse_values, List.filter_append, List.filter_cons_of_neg (by simp [hleft t ht]), List.filter_nil,
        List.append_nil, List.filter_congr (hsame t ht)]
    · obtain ⟨error, herror⟩ := List.exists_mem_of_ne_nil _
        (errors_of_wrong hwrong (hempty line (List.mem_of_getElem? hi)))
      refine ⟨⟨i, error, line⟩, ?_, rfl, rfl⟩
      rw [parse_reports, List.mem_flatMap]
      have hlt : i < (fileLines text).length := (List.getElem?_eq_some_iff.mp hi).1
      refine ⟨(line, i), List.mem_zipIdx_iff_getElem?.mpr ?_, List.mem_map_of_mem herror⟩
      rwa [List.getElem?_append_left hlt]
    · rw [parse_ok]
      constructor
      · exact fun h line hline => (herrors line hline).mp (h line (List.mem_append_left _ hline))
      · intro h line hline
        rcases List.mem_append.mp hline with hline | hline
        · exact (herrors line hline).mpr (h line hline)
        · obtain rfl := List.mem_singleton.mp hline
          rcases leftOver_cases text with hleft | hmem
          · rw [hleft]
            rfl
          · exact (herrors _ hmem).mpr (h _ hmem)

/-- The text goes to the copyright, as if that had a tag without a name. -/
theorem parse_dispatched_empty :
    (package.parse (fun _ => []) (some "[] some text\n".toList)).ok = true ∧
      ¬Dispatched package "[] some text\n".toList (fun _ => [])
        (package.parse (fun _ => []) (some "[] some text\n".toList)) := by
  refine ⟨by decide +kernel, fun h => ?_⟩
  have hvalue := h.values (.of "COPY" "" "") (by decide +kernel)
  revert hvalue
  decide +kernel

end Parse

/-- What is printed while a file is parsed. -/
def TagParser.stderr (p : TagParser) (file : Str) : Option Str → Str
  | none => file ++ ": Can not open file!\n".toList
  | some text => (p.parse (fun _ => []) (some text)).reports.flatMap (Report.message file)

theorem message_ne_nil (file : Str) (r : Report) : r.message file ≠ [] := by
  obtain ⟨linenr, error, line⟩ := r
  cases error <;> simp [Report.message]

/-- A parser is silent exactly if it returns true. -/
theorem stderr_eq_nil_iff (p : TagParser) (file : Str) (text : Option Str) :
    p.stderr file text = [] ↔ (p.parse (fun _ => []) text).ok = true := by
  cases text with
  | none => simp [TagParser.stderr, TagParser.parse]
  | some text =>
    have hok : (p.parse (fun _ => []) (some text)).ok =
      (p.parse (fun _ => []) (some text)).reports.isEmpty := rfl
    rw [TagParser.stderr, hok, List.flatMap_eq_nil_iff, List.isEmpty_iff]
    constructor
    · intro h
      cases hr : (p.parse (fun _ => []) (some text)).reports with
      | nil => rfl
      | cons r reports => exact absurd (h r (by simp [hr])) (message_ne_nil file r)
    · intro h r hr
      rw [h] at hr
      cases hr

/-- The package parser fills its tags as the one of the values alone does. -/
theorem parse_packageParse (text : Str) :
    (package.parse (fun _ => []) (some text)).values = packageParse text := by
  have hline : ∀ line, (package.parseLine line).tag = packageLine line := by
    intro line
    rw [TagParser.parseLine, packageLine]
    by_cases hskip : skipped line = true
    · have hnone : splitLine line = none := by
        rw [splitLine, if_pos (by simpa [skipped, or_assoc] using hskip)]
      rw [if_pos hskip, hnone]
      rfl
    · rw [if_neg hskip]
      cases splitLine line with
      | none => rfl
      | some found =>
        have hfind : package.tags.find? (·.called found.1) = registered found.1 := rfl
        simp only [Option.bind_some, hfind]
        cases registered found.1 <;> rfl
  have hfold : ∀ (lines : List Str) (s : ParseState),
      (lines.foldl package.handle s).values = lines.foldl appendLine s.values := by
    intro lines
    induction lines with
    | nil => exact fun _ => rfl
    | cons line lines ih =>
      intro s
      have hstep : (package.handle s line).values = appendLine s.values line := by
        simp only [TagParser.handle, hline]
        rfl
      rw [List.foldl_cons, List.foldl_cons, ih, hstep]
  rw [TagParser.parse, readLoop_eq package.handle le_rfl, packageParse, parseLoop_readLoop,
    readLoop_eq appendLine le_rfl]
  exact hfold _ _

end T2SDE.DescParsers
