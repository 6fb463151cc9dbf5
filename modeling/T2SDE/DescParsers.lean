import Mathlib.Data.List.DropRight
import Mathlib.Logic.Function.Basic
import T2SDE.Lib.LuaMatch

namespace T2SDE.DescParsers

open Text Lua

/-- The lines of PKG-DESC-FORMAT that begin with a bracket. -/
def formatLines : List Str :=
  ["[COPY]".toList, "[I] [TITLE] (1) (*)".toList, "[T] [TEXT] (*)".toList, "[U] [URL]".toList,
    "[A] [AUTHOR] (*)".toList, "[M] [MAINTAINER] (*)".toList, "[C] [CATEGORY] (*)".toList,
    "[F] [FLAG]".toList, "[R] [ARCH] [ARCHITECTURE]".toList, "[K] [KERN] [KERNEL]".toList,
    "[E] [DEP] [DEPENDENCY]".toList, "[L] [LICENSE] (1) (*)".toList, "[S] [STATUS] (1) (*)".toList,
    "[V] [VER] [VERSION] (1) (*)".toList, "[P] [PRI] [PRIORITY] (1) (*)".toList, "[CV-URL] (1)".toList,
    "[CV-FLAGS] (1)".toList, "[CV-PAT]".toList, "[CV-DEL]".toList, "[O] [CONF]".toList,
    "[D] [DOWN] [DOWNLOAD]".toList, "[SRC] [SOURCEPACKAGE] (1)".toList]

section Lua

/-- `string.gfind(line, "[[]([^]]*)[]]")`, with the bracket that is open. -/
def brackets : Option Str → Str → List Str
  | _, [] => []
  | none, c :: s => if c = '[' then brackets (some []) s else brackets none s
  | some w, c :: s => if c = ']' then w :: brackets none s else brackets (some (w ++ [c])) s

def aliases (format : Str) : List Str := brackets none format

/-- The last tag definition, in lower case. -/
def luaName (format : Str) : Str := ((aliases format).getLastD []).map Char.toLower

/-- `desc.__format__[tag].name` -/
def luaFormat (tag : Str) : Option Str :=
  (formatLines.reverse.find? fun format => (aliases format).any fun a =>
    '[' :: (a ++ [']']) == tag).map luaName

def descPattern : Str := "([[][^]]*[]])[ ]+(.*)".toList

/-- The name and the value that `desc.parse` finds in a line. -/
def luaLine (line : Str) : Option (Str × Str) :=
  match strMatch line descPattern with
  | some [tag, cnt] => (luaFormat tag).map fun name => (name, cnt)
  | _ => none

/-- `desc.parse(iter)[name]` -/
def luaParse (text name : Str) : List Str :=
  (fileLines text).filterMap fun line => (luaLine line).bind fun p => if p.1 = name then some p.2 else none

end Lua

section Package

/-- A `Tag` with its three names. -/
structure Tag where
  shortName : Str
  name : Str
  longName : Str
  deriving DecidableEq

def Tag.of (shortName name longName : String) : Tag := ⟨shortName.toList, name.toList, longName.toList⟩

/-- The tags of `Package` as they are pushed. -/
def packageTags : List Tag :=
  [.of "COPY" "" "", .of "I" "" "INFO", .of "T" "" "TEXT", .of "U" "" "URL", .of "A" "AUTH" "AUTHOR",
    .of "M" "" "MAINTAINER", .of "C" "" "CATEGORY", .of "F" "" "FLAGS", .of "R" "ARCH" "ARCHITECTUR",
    .of "K" "KERN" "KERNEL", .of "E" "DEP" "DEPENDENCY", .of "L" "" "LICENCE", .of "S" "" "STATUS",
    .of "V" "VER" "VERSION", .of "P" "" "PRIORITY", .of "D" "DOWN" "DOWNLOAD", .of "" "" "CV-URL",
    .of "" "" "CV-FLAGS", .of "SRC" "" "SRCPACKAGE", .of "O" "" "CONF"]

def Tag.called (t : Tag) (tag : Str) : Bool := tag == t.shortName || tag == t.longName || tag == t.name

/-- The first registered tag with the name. -/
def registered (tag : Str) : Option Tag := packageTags.find? (·.called tag)

/-- The tag and the value of a line, for a line that has one. -/
def splitLine (s : Str) : Option (Str × Str) :=
  let idx := (s.takeWhile (· != ' ')).length
  if s.head? = none ∨ s.head? = some '#' ∨ s.head? = some ' ' then none
  else if s.head? ≠ some '[' ∨ s[idx - 1]? ≠ some ']' then none
  else some ((s.drop 1).take (idx - 2), s.drop idx)

/-- The tag object that a line goes to, and the value that is appended. -/
def packageLine (line : Str) : Option (Tag × Str) :=
  (splitLine line).bind fun p => (registered p.1).map fun t => (t, p.2)

def appendLine (values : Tag → Str) (line : Str) : Tag → Str :=
  match packageLine line with
  | some (t, value) => Function.update values t (values t ++ (value ++ ['\n']))
  | none => values

structure Stream where
  rest : Str
  eof : Bool
  fail : Bool

/-- `std::getline`; where the stream is at its end already, the string stays as it is. -/
def getline (s : Stream) (line : Str) : Stream × Str :=
  if s.eof || s.fail then ({ s with fail := true }, line)
  else if '\n' ∈ s.rest then
    ({ s with rest := (s.rest.dropWhile (· != '\n')).drop 1 }, s.rest.takeWhile (· != '\n'))
  else ({ rest := [], eof := true, fail := s.rest.isEmpty }, s.rest)

/-- The loop of `TagParser::Parse`. -/
def parseLoop : Nat → Stream → Str → (Tag → Str) → Tag → Str
  | 0, _, _, values => values
  | fuel + 1, s, line, values =>
    if s.fail then values
    else parseLoop fuel (getline s line).1 (getline s line).2 (appendLine values (getline s line).2)

/-- The values of the tags after `Parse`. -/
def packageParse (text : Str) : Tag → Str :=
  parseLoop (text.length + 3) { rest := text, eof := false, fail := false } [] fun _ => []

/-- The member of `Package` for a tag definition. -/
def packageTag (format : Str) : Option Tag := packageTags.find? fun t => (aliases format).any t.called

end Package

section Shell

/-- `s/. ./|/g` -/
def alternatives : Str → Str
  | _ :: ' ' :: _ :: s => '|' :: alternatives s
  | c :: s => c :: alternatives s
  | [] => []

/-- The tags of a line of PKG-DESC-FORMAT as `sed` gives them. -/
def sedTags (format : Str) : Str :=
  let inner := ((format.reverse.dropWhile (· != ']')).drop 1).reverse
  let joined := alternatives inner
  if joined.head? = some '[' then joined.drop 1 else joined

def shellTags (format : Str) : List Str := (sedTags format).splitOn '|'

/-- `egrep "^\[($tag)\]"` -/
def grepped (format line : Str) : Bool := (shellTags format).any fun a =>
    ('[' :: (a ++ [']'])).isPrefixOf line

/-- `cut -f2- -d']' | sed 's,^ ,,'` -/
def shellValue (line : Str) : Str :=
  let field := (line.dropWhile (· != ']')).drop 1
  if field.head? = some ' ' then field.drop 1 else field

/-- A command substitution whose command writes some lines. -/
def substituted (lines : List Str) : Str := (lines.flatMap fun line => line ++ ['\n']).rdropWhile (· == '\n')

def tagdata (text format : Str) : Str :=
  substituted (((fileLines text).filter (grepped format)).map shellValue)

/-- The variable, without its `desc_`. -/
def descName (format : Str) : Str := ((shellTags format).headD []).map fun c => if c = '-' then '_' else c

/-- The variables that `parse_desc` sets, in order. -/
def parseDesc (text : Str) : List (Str × Str) :=
  formatLines.filterMap fun format =>
    if tagdata text format ≠ [] then some (descName format, tagdata text format) else none

/-- The lines of a variable; of one that is not set there are none. -/
def descLines (vars : List (Str × Str)) (name : Str) : List Str :=
  match vars.reverse.find? (·.1 == name) with
  | some v => fileLines v.2
  | none => []

/-- `${desc_name}` -/
def descVar (vars : List (Str × Str)) (name : Str) : Str :=
  ((vars.reverse.find? (·.1 == name)).map (·.2)).getD []

end Shell

section Claimed

def luaValues (text format : Str) : List Str := luaParse text (luaName format)

def packageValues (text format : Str) : List Str :=
  match packageTag format with
  | some t => fileLines (packageParse text t)
  | none => []

def descValues (text format : Str) : List Str := descLines (parseDesc text) (descName format)

/-- A line `[TAG] value` for a tag definition. -/
def IsTag (line format value : Str) : Prop :=
  ∃ tag ∈ aliases format, line = '[' :: (tag ++ ']' :: ' ' :: value)

/-- A file of tag lines, comment lines and blank lines. -/
def IsDesc (text : Str) : Prop :=
  Char.ofNat 0 ∉ text ∧ ∀ line ∈ fileLines text, (∃ format ∈ formatLines, ∃ value, IsTag line format value) ∨
    line.head? = some '#' ∨ ∀ c ∈ line, c = ' ' ∨ c = '\t'

end Claimed

section Tables

/-- How the names that the parsers have for a tag definition fit to those for itself and for another one. -/
theorem tables_fit : ∀ format ∈ formatLines,
    shellTags format = aliases format ∧
      (∀ tag ∈ aliases format, luaFormat ('[' :: (tag ++ [']'])) = some (luaName format) ∧
        (']' ∉ tag ∧ ' ' ∉ tag) ∧ (registered tag = none ∨ registered tag = packageTag format)) ∧
      ∀ other ∈ formatLines, (luaName format = luaName other → format = other) ∧
        (descName format = descName other → format = other) ∧
        (∀ tag ∈ aliases format, tag ∈ aliases other → format = other) ∧
        (packageTag format = packageTag other → packageTag format = none ∨ format = other) := by
  simp only [luaFormat, formatLines, registered, packageTag, packageTags, Tag.of]
  -- the characters of the literals first: the kernel takes long to decode them
  repeat rw [String.toList_ofList]
  decide +kernel

theorem shellTags_eq : ∀ format ∈ formatLines, shellTags format = aliases format :=
  fun format hf => (tables_fit format hf).1

theorem luaFormat_alias : ∀ format ∈ formatLines, ∀ tag ∈ aliases format,
    luaFormat ('[' :: (tag ++ [']'])) = some (luaName format) :=
  fun format hf tag ht => ((tables_fit format hf).2.1 tag ht).1

theorem alias_plain : ∀ format ∈ formatLines, ∀ tag ∈ aliases format, ∀ c ∈ tag, c ≠ ']' ∧ c ≠ ' ' := by
  intro format hf tag ht c hc
  obtain ⟨hbracket, hblank⟩ := ((tables_fit format hf).2.1 tag ht).2.1
  exact ⟨fun h => hbracket (h ▸ hc), fun h => hblank (h ▸ hc)⟩

theorem registered_alias : ∀ format ∈ formatLines, ∀ tag ∈ aliases format,
    registered tag = none ∨ registered tag = packageTag format :=
  fun format hf tag ht => ((tables_fit format hf).2.1 tag ht).2.2

theorem luaName_inj : ∀ format ∈ formatLines, ∀ other ∈ formatLines,
    luaName format = luaName other → format = other :=
  fun format hf other ho => ((tables_fit format hf).2.2 other ho).1

theorem descName_inj : ∀ format ∈ formatLines, ∀ other ∈ formatLines,
    descName format = descName other → format = other :=
  fun format hf other ho => ((tables_fit format hf).2.2 other ho).2.1

theorem alias_unique : ∀ format ∈ formatLines, ∀ other ∈ formatLines, ∀ tag ∈ aliases format,
    tag ∈ aliases other →
    format = other :=
  fun format hf other ho => ((tables_fit format hf).2.2 other ho).2.2.1

theorem packageTag_inj : ∀ format ∈ formatLines, ∀ other ∈ formatLines, packageTag format = packageTag other →
    packageTag format = none ∨ format = other :=
  fun format hf other ho => ((tables_fit format hf).2.2 other ho).2.2.2

end Tables

section Lines

/-- The text of a line for a tag. -/
def tagLine (tag value : Str) : Str := '[' :: (tag ++ ']' :: ' ' :: value)

def descItems : List Item :=
  [.openCapture, .single (.set false [.char '[']) .one, .single (.set true [.char ']']) .star,
    .single (.set false [.char ']']) .one, .closeCapture, .single (.set false [.char ' ']) .plus,
    .openCapture, .single .any .star, .closeCapture]

theorem compile_descPattern : compile descPattern = some ⟨false, descItems⟩ := by decide +kernel

/-- The value of a tag line without the blanks in front of it. -/
def ltrim (value : Str) : Str := value.dropWhile (· == ' ')

theorem strMatch_tagLine {tag : Str} (htag : ∀ c ∈ tag, c ≠ ']' ∧ c ≠ ' ') (value : Str) :
    strMatch (tagLine tag value) descPattern = some ['[' :: (tag ++ [']']), ltrim value] := by
  have hblank {c : Char} (h : (c == ' ') = true) : (CharClass.set false [.char ' ']).admits c = true := by
    rw [beq_iff_eq.mp h]
    rfl
  have hstop : Stops (CharClass.set false [.char ' ']).admits (ltrim value) := by
    intro c t hc
    have hhead := List.head?_dropWhile_not (· == ' ') value
    rw [← ltrim, hc] at hhead
    have hne : c ≠ ' ' := by simpa using hhead
    simpa [CharClass.admits, SetElem.admits] using Ne.symm hne
  have hvalue (cs : List Capture) : doMatch [.openCapture, .single .any .star, .closeCapture]
    (ltrim value) cs =
      some ([], .text (ltrim value) :: cs) := by
    have hfield : doMatch [.openCapture, .single .any .star, .closeCapture] (ltrim value ++ []) cs =
        some ([], .text (ltrim value) :: cs) := doMatch_starField (fun _ _ => rfl) (stops_nil _) rfl
    rwa [List.append_nil] at hfield
  have hblanks (cs : List Capture) :
      doMatch [.single (.set false [.char ' ']) .plus, .openCapture, .single .any .star, .closeCapture]
        (' ' :: value) cs = some ([], .text (ltrim value) :: cs) := by
    have hsplit : ' ' :: value = (' ' :: value.takeWhile (· == ' ')) ++ ltrim value := by
      rw [ltrim, List.cons_append, List.takeWhile_append_dropWhile]
    rw [hsplit]
    refine doMatch_plusSkip (List.cons_ne_nil _ _) ?_ hstop (hvalue cs)
    intro c hc
    rcases List.mem_cons.mp hc with rfl | hc
    · rfl
    · have h := List.mem_takeWhile_imp hc
      exact hblank h
  refine strMatch_start (by simp) compile_descPattern (?_ : _ = some (([] : Str), _))
  change doMatch [.single (.set true [.char ']']) .star, .single (.set false [.char ']']) .one, .closeCapture,
    .single (.set false [.char ' ']) .plus, .openCapture, .single .any .star, .closeCapture]
    (tag ++ ']' :: ' ' :: value) [.unfinished (tagLine tag value)] = _
  refine doMatch_skip ?_ (stops_cons rfl _) ?_
  · intro c hc
    have hne := (htag c hc).1
    simpa [CharClass.admits, SetElem.admits] using Ne.symm hne
  · have hbetween : between (tagLine tag value) (' ' :: value) = '[' :: (tag ++ [']']) := by
      have htext : tagLine tag value = ('[' :: (tag ++ [']'])) ++ (' ' :: value) := by simp [tagLine]
      rw [htext, between_append]
    rw [doMatch, if_pos (by decide), doMatch, Lua.close, hbetween, Option.bind_some, hblanks]
    rfl

/-- A line without a bracket has no tag for Lua. -/
theorem strMatch_no_bracket {line : Str} (h : '[' ∉ line) : strMatch line descPattern = none := by
  have hsearch : searchFrom descItems line = none := by
    induction line with
    | nil => rfl
    | cons c line ih =>
      have hc : (CharClass.set false [.char '[']).admits c = false := by
        have hne : '[' ≠ c := fun he => h (he ▸ List.mem_cons_self)
        simpa [CharClass.admits, SetElem.admits] using hne
      have hmatch : doMatch descItems (c :: line) [] = none := by
        rw [descItems, doMatch, doMatch, if_neg (by simp [hc])]
      rw [searchFrom, hmatch]
      exact ih fun hmem => h (List.mem_cons_of_mem _ hmem)
  rw [strMatch, compile_descPattern, Option.bind_some, search, if_neg (by simp), hsearch]
  rfl

variable {format tag : Str}

theorem luaLine_tagLine (hf : format ∈ formatLines) (ht : tag ∈ aliases format) (value : Str) :
    luaLine (tagLine tag value) = some (luaName format, ltrim value) := by
  rw [luaLine, strMatch_tagLine (alias_plain format hf tag ht)]
  change (luaFormat _).map _ = _
  rw [luaFormat_alias format hf tag ht]
  rfl

theorem splitLine_tagLine (hf : format ∈ formatLines) (ht : tag ∈ aliases format) (value : Str) :
    splitLine (tagLine tag value) = some (tag, ' ' :: value) := by
  have hword : (tagLine tag value).takeWhile (· != ' ') = '[' :: (tag ++ [']']) := by
    have htext : tagLine tag value = ('[' :: (tag ++ [']'])) ++ ' ' :: value := by simp [tagLine]
    have hall : ∀ c ∈ '[' :: (tag ++ [']']), (c != ' ') = true := by
      intro c hc
      rcases List.mem_cons.mp hc with rfl | hc
      · rfl
      · rcases List.mem_append.mp hc with hc | hc
        · simpa using (alias_plain format hf tag ht c hc).2
        · rw [List.mem_singleton.mp hc]
          rfl
    rw [htext, List.takeWhile_append_of_pos hall, List.takeWhile_cons_of_neg (by decide), List.append_nil]
  have hidx : ('[' :: (tag ++ [']'])).length = tag.length + 2 := by simp
  have hclose : (tagLine tag value)[tag.length + 2 - 1]? = some ']' := by
    rw [tagLine, show tag.length + 2 - 1 = tag.length + 1 by omega, List.getElem?_cons_succ]
    simp
  rw [splitLine, hword, hidx, if_neg (by simp [tagLine]), if_neg (by simp [tagLine])]
  simp [tagLine]

theorem eq_of_tag_prefix {a : Str} (ha : ∀ c ∈ a, c ≠ ']' ∧ c ≠ ' ') (ht : ∀ c ∈ tag, c ≠ ']' ∧ c ≠ ' ')
    {value : Str} (h : ('[' :: (a ++ [']'])).isPrefixOf (tagLine tag value) = true) : a = tag := by
  have hcut {w : Str} (hw : ∀ c ∈ w, c ≠ ']' ∧ c ≠ ' ') (rest : Str) :
      (w ++ ']' :: rest).takeWhile (· != ']') = w := by
    rw [List.takeWhile_append_of_pos fun c hc => by simpa using (hw c hc).1,
      List.takeWhile_cons_of_neg (by decide), List.append_nil]
  obtain ⟨rest, hrest⟩ := List.isPrefixOf_iff_prefix.mp h
  have hsame : a ++ ']' :: rest = tag ++ ']' :: ' ' :: value := by
    simpa [tagLine] using hrest
  rw [← hcut ha rest, hsame, hcut ht]

theorem grepped_tagLine (hf : format ∈ formatLines) (ht : tag ∈ aliases format) {other : Str}
    (ho : other ∈ formatLines) (value : Str) : grepped other (tagLine tag value) = true ↔ other = format := by
  rw [grepped, shellTags_eq other ho, List.any_eq_true]
  constructor
  · rintro ⟨a, ha, hp⟩
    have hat := eq_of_tag_prefix (alias_plain other ho a ha) (alias_plain format hf tag ht) hp
    exact alias_unique other ho format hf a ha (hat ▸ ht)
  · rintro rfl
    refine ⟨tag, ht, List.isPrefixOf_iff_prefix.mpr ⟨' ' :: value, ?_⟩⟩
    simp [tagLine]

theorem shellValue_tagLine (hf : format ∈ formatLines) (ht : tag ∈ aliases format) (value : Str) :
    shellValue (tagLine tag value) = value := by
  have htext : tagLine tag value = ('[' :: tag) ++ ']' :: ' ' :: value := rfl
  have hall : ∀ c ∈ '[' :: tag, (c != ']') = true := by
    intro c hc
    rcases List.mem_cons.mp hc with rfl | hc
    · rfl
    · simpa using (alias_plain format hf tag ht c hc).1
  rw [shellValue, htext, List.dropWhile_append_of_pos hall, List.dropWhile_cons_of_neg (by decide)]
  rfl

/-- What the three parsers make of a line that is no tag line. -/
theorem other_line {line : Str} (h : line.head? = some '#' ∨ ∀ c ∈ line, c = ' ' ∨ c = '\t') :
    splitLine line = none ∧ (∀ other, grepped other line = false) ∧
      (line.head? = some '#' ∨ luaLine line = none) := by
  have hhead : line.head? ≠ some '[' := by
    rcases h with h | h
    · simp [h]
    · intro hb
      have hmem := h '[' (List.mem_of_mem_head? hb)
      simp at hmem
  refine ⟨?_, ?_, ?_⟩
  · rw [splitLine]
    split_ifs with h1 h2
    · rfl
    · rfl
    · exact absurd (not_not.mp fun hn => h2 (.inl hn)) hhead
  · intro other
    rw [grepped, List.any_eq_false]
    intro a _ hp
    obtain ⟨rest, rfl⟩ := List.isPrefixOf_iff_prefix.mp hp
    exact hhead rfl
  · rcases h with h | h
    · exact .inl h
    · right
      rw [luaLine, strMatch_no_bracket]
      intro hb
      have hmem := h '[' hb
      simp at hmem

end Lines

section Files

variable {text : Str}

/-- A line of a file: a tag line, or a comment or blank line. -/
theorem IsDesc.cases (h : IsDesc text) {line : Str} (hl : line ∈ fileLines text) :
    (∃ format ∈ formatLines, ∃ tag ∈ aliases format, ∃ value, line = tagLine tag value) ∨
      line.head? = some '#' ∨ ∀ c ∈ line, c = ' ' ∨ c = '\t' := by
  rcases h.2 line hl with ⟨format, hf, value, tag, ht, rfl⟩ | h
  · exact .inl ⟨format, hf, tag, ht, value, rfl⟩
  · exact .inr h

theorem not_newline_of_line {line : Str} (hl : line ∈ fileLines text) : '\n' ∉ line := by
  induction text generalizing line with
  | nil => simp [fileLines] at hl
  | cons c text ih =>
    rw [fileLines] at hl
    split at hl
    next =>
      rcases List.mem_cons.mp hl with rfl | hl
      · simp
      · exact ih hl
    next hc =>
      cases hls : fileLines text with
      | nil =>
        simp only [hls, List.mem_singleton] at hl
        rw [hl]
        simpa using Ne.symm hc
      | cons first rest =>
        simp only [hls, List.mem_cons] at hl
        rw [hls] at ih
        rcases hl with rfl | hl
        · intro hmem
          rcases List.mem_cons.mp hmem with hmem | hmem
          · exact hc hmem.symm
          · exact ih List.mem_cons_self hmem
        · exact ih (List.mem_cons_of_mem _ hl)

/-- The value that the shell takes from a line for a tag definition. -/
def valueOf (format line : Str) : Option Str := if grepped format line then some (shellValue line) else none

/-- The value that Lua takes from a line for a tag definition. -/
def luaValueOf (format line : Str) : Option Str :=
  (luaLine line).bind fun p => if p.1 = luaName format then some p.2 else none

theorem luaValues_eq (format : Str) :
    luaValues text format = (fileLines text).filterMap (luaValueOf format) := rfl

theorem fileLines_last {lines : List Str} (h : ∀ line ∈ lines, '\n' ∉ line) {last : Str} (hne : last ≠ [])
    (hlast : '\n' ∉ last) :
    fileLines ((lines.flatMap fun line => line ++ ['\n']) ++ last) = lines ++ [last] := by
  induction lines with
  | nil =>
    induction last with
    | nil => exact absurd rfl hne
    | cons c last ih =>
      have hc : c ≠ '\n' := fun he => hlast (he ▸ List.mem_cons_self)
      cases last with
      | nil => simp [fileLines, hc]
      | cons d last =>
        have hrest := ih (List.cons_ne_nil d last) fun hm => hlast (List.mem_cons_of_mem _ hm)
        rw [List.flatMap_nil, List.nil_append] at hrest
        rw [List.flatMap_nil, List.nil_append, fileLines, if_neg hc, hrest]
        rfl
  | cons line lines ih =>
    rw [List.flatMap_cons, List.append_assoc, List.append_assoc, List.singleton_append,
      fileLines_line (h line (by simp)), ih fun l hl => h l (by simp [hl])]
    rfl

/-- Texts whose lines have been joined are those lines again, without the empty ones at the end. -/
theorem fileLines_substituted {lines : List Str} (h : ∀ line ∈ lines, '\n' ∉ line) :
    fileLines (substituted lines) = lines.rdropWhile (· == []) := by
  induction lines using List.reverseRecOn with
  | nil => rfl
  | append_singleton lines last ih =>
    have hlines : ∀ line ∈ lines, '\n' ∉ line := fun l hl => h l (by simp [hl])
    have hlast : '\n' ∉ last := h last (by simp)
    have hjoin : substituted (lines ++ [last]) =
        ((lines.flatMap fun line => line ++ ['\n']) ++ last).rdropWhile (· == '\n') := by
      rw [substituted, List.flatMap_append, List.flatMap_singleton, ← List.append_assoc,
        List.rdropWhile_concat_pos _ _ _ (by decide)]
    by_cases hne : last = []
    · subst hne
      rw [hjoin, List.append_nil, List.rdropWhile_concat_pos _ _ _ rfl]
      exact ih hlines
    · obtain ⟨init, c, hinit⟩ := (List.eq_nil_or_concat last).resolve_left hne
      have hc : c ≠ '\n' := fun he => hlast (by simp [hinit, he])
      have hkeep : ((lines.flatMap fun line => line ++ ['\n']) ++ last).rdropWhile (· == '\n') =
          (lines.flatMap fun line => line ++ ['\n']) ++ last := by
        rw [hinit, List.concat_eq_append, ← List.append_assoc,
          List.rdropWhile_concat_neg _ _ _ (by simpa using hc)]
      rw [hjoin, hkeep, fileLines_last hlines hne hlast,
        List.rdropWhile_concat_neg _ _ _ (by simpa using hne)]

theorem filterMap_ite {α β : Type} (p : α → Bool) (g : α → β) (xs : List α) :
    (xs.filterMap fun x => if p x then some (g x) else none) = (xs.filter p).map g := by
  induction xs with
  | nil => rfl
  | cons x xs ih => cases hx : p x <;> simp [hx, ih]

theorem descVar_parseDesc {format : Str} (hf : format ∈ formatLines) :
    descVar (parseDesc text) (descName format) = tagdata text format := by
  have honly : ∀ v ∈ parseDesc text, v.1 = descName format →
    v.2 = tagdata text format ∧ tagdata text format ≠ [] := by
    intro v hv hname
    obtain ⟨other, ho, hsome⟩ := List.mem_filterMap.mp hv
    split at hsome
    next hne =>
      cases Option.some.inj hsome
      cases descName_inj other ho format hf hname
      exact ⟨rfl, hne⟩
    next => cases hsome
  rw [descVar]
  cases hfind : (parseDesc text).reverse.find? (·.1 == descName format) with
  | some v =>
    exact (honly v (List.mem_reverse.mp (List.mem_of_find?_eq_some hfind))
      (by simpa using List.find?_some hfind)).1
  | none =>
    have hunset : tagdata text format = [] := by
      by_contra hne
      have hmem : (descName format, tagdata text format) ∈ parseDesc text :=
        List.mem_filterMap.mpr ⟨format, hf, if_pos hne⟩
      have hno := List.find?_eq_none.mp hfind _ (List.mem_reverse.mpr hmem)
      simp at hno
    rw [hunset]
    rfl

theorem descLines_parseDesc {format : Str} (hf : format ∈ formatLines) :
    descLines (parseDesc text) (descName format) = fileLines (tagdata text format) := by
  rw [← descVar_parseDesc hf, descLines, descVar]
  cases (parseDesc text).reverse.find? (·.1 == descName format) <;> rfl

theorem descValues_eq {format : Str} (hf : format ∈ formatLines) :
    descValues text format = ((fileLines text).filterMap (valueOf format)).rdropWhile (· == []) := by
  have hvalues : ((fileLines text).filter (grepped format)).map shellValue =
      (fileLines text).filterMap (valueOf format) := (filterMap_ite ..).symm
  rw [descValues, descLines_parseDesc hf, tagdata, hvalues]
  refine fileLines_substituted ?_
  intro value hvalue
  obtain ⟨line, hl, hsome⟩ := List.mem_filterMap.mp hvalue
  rw [valueOf] at hsome
  split at hsome
  next =>
    have hno := not_newline_of_line hl
    cases Option.some.inj hsome
    have hfield : ∀ c ∈ (line.dropWhile (· != ']')).drop 1, c ∈ line :=
      fun c hc => (List.dropWhile_sublist _).mem (List.mem_of_mem_drop hc)
    rw [shellValue]
    intro hmem
    split at hmem
    next => exact hno (hfield _ (List.mem_of_mem_drop hmem))
    next => exact hno (hfield _ hmem)
  next => cases hsome

/-- The last line, where the file does not end with a newline. -/
def again (text : Str) : List Str :=
  if text.getLast? = none ∨ text.getLast? = some '\n' then [] else (fileLines text).getLast?.toList

theorem again_line {line rest : Str} (hl : '\n' ∉ line) : again (line ++ '\n' :: rest) = again rest := by
  rw [again, again, fileLines_line hl]
  cases rest with
  | nil => simp
  | cons c rest =>
    have hne : fileLines (c :: rest) ≠ [] := by
      rw [fileLines]
      split
      · simp
      · split <;> simp
    obtain ⟨first, others, hlines⟩ := List.exists_cons_of_ne_nil hne
    rw [hlines, List.getLast?_append, List.getLast?_cons_cons, List.getLast?_cons_cons]
    cases hlast : (c :: rest).getLast? with
    | none => simp at hlast
    | some d => rfl

theorem appendLine_nil (values : Tag → Str) : appendLine values [] = values := by
  rw [appendLine, show packageLine [] = none by rfl]

/-- A loop that calls `getline` and handles the string, until the stream has failed. -/
def readLoop {σ : Type} (handle : σ → Str → σ) : Nat → Stream → Str → σ → σ
  | 0, _, _, st => st
  | fuel + 1, s, line, st =>
    if s.fail then st
    else readLoop handle fuel (getline s line).1 (getline s line).2 (handle st (getline s line).2)

/-- What is in the string after the last call of `getline`. -/
def leftOver (text : Str) : Str := (again text).headD []

theorem leftOver_line {line rest : Str} (hl : '\n' ∉ line) :
    leftOver (line ++ '\n' :: rest) = leftOver rest := by
  rw [leftOver, again_line hl, leftOver]

theorem leftOver_last {last : Str} (hne : last ≠ []) (hlast : '\n' ∉ last) :
    fileLines last = [last] ∧ again last = [last] := by
  have hlines : fileLines ([] ++ last) = [] ++ [last] := fileLines_last (List.forall_mem_nil _) hne hlast
  have hend : last.getLast? ≠ some '\n' := fun h => hlast (List.mem_of_getLast? h)
  rw [List.nil_append] at hlines
  refine ⟨hlines, ?_⟩
  rw [again, if_neg (by simpa [hne] using hend), hlines]
  rfl

/-- The loop goes through the lines, and once more through what the string holds then. -/
theorem readLoop_eq {σ : Type} (handle : σ → Str → σ) {fuel : Nat} {rest : Str}
    (hfuel : rest.length + 3 ≤ fuel)
    (line : Str) (st : σ) :
    readLoop handle fuel { rest, eof := false, fail := false } line st =
      (fileLines rest ++ [leftOver rest]).foldl handle st := by
  induction hn : rest.length using Nat.strongRecOn generalizing rest fuel line st with
  | _ n ih =>
    obtain ⟨fuel, rfl⟩ : ∃ k, fuel = k + 1 := ⟨fuel - 1, by omega⟩
    rw [readLoop, if_neg (by simp)]
    by_cases hnl : '\n' ∈ rest
    · obtain ⟨first, others, rfl, hfirst⟩ := List.eq_append_cons_of_mem hnl
      have hpos : ∀ c ∈ first, (c != '\n') = true := fun c hc => by
        simpa using fun he : c = '\n' => hfirst (he ▸ hc)
      have hget : getline { rest := first ++ '\n' :: others, eof := false, fail := false } line =
          ({ rest := others, eof := false, fail := false }, first) := by
        rw [getline, if_neg (by simp), if_pos hnl]
        dsimp only
        rw [List.dropWhile_append_of_pos hpos, List.dropWhile_cons_of_neg (by decide),
          List.takeWhile_append_of_pos hpos, List.takeWhile_cons_of_neg (by decide), List.append_nil]
        rfl
      have hlen : others.length < n := by
        simp only [List.length_append, List.length_cons] at hn
        omega
      rw [hget, leftOver_line hfirst, fileLines_line hfirst, List.cons_append, List.foldl_cons]
      exact ih others.length hlen (by simp only [List.length_append, List.length_cons] at hfuel; omega) _
        _ rfl
    · cases rest with
      | nil =>
        obtain ⟨fuel, rfl⟩ : ∃ k, fuel = k + 1 := ⟨fuel - 1, by simp at hfuel; omega⟩
        rw [getline, if_neg (by simp), if_neg hnl]
        rfl
      | cons c rest =>
        obtain ⟨fuel, rfl⟩ : ∃ k, fuel = k + 2 := ⟨fuel - 2, by simp at hfuel; omega⟩
        obtain ⟨hlines, hagain⟩ := leftOver_last (List.cons_ne_nil c rest) hnl
        rw [getline, if_neg (by simp), if_neg hnl, leftOver, hlines, hagain, readLoop, if_neg (by simp),
          getline,
          if_pos (by simp)]
        cases fuel <;> rfl

theorem parseLoop_readLoop (fuel : Nat) (s : Stream) (line : Str) (values : Tag → Str) :
    parseLoop fuel s line values = readLoop appendLine fuel s line values := by
  induction fuel generalizing s line values with
  | zero => rfl
  | succ fuel ih => rw [parseLoop, readLoop, ih]

theorem again_cases (text : Str) : again text = [] ∧ leftOver text = [] ∨ again text = [leftOver text] := by
  unfold leftOver
  rcases h : again text with _ | ⟨line, lines⟩
  · exact .inl ⟨rfl, rfl⟩
  · right
    rw [again] at h
    split_ifs at h
    cases hlast : (fileLines text).getLast? with
    | none => simp [hlast] at h
    | some last =>
      rw [hlast, Option.toList_some, List.cons.injEq] at h
      rw [← h.2]
      rfl

/-- The loop goes through the lines, and through the last one twice where its end is missing. -/
theorem parseLoop_eq {fuel : Nat} {rest : Str} (hfuel : rest.length + 3 ≤ fuel) (line : Str)
    (values : Tag → Str) :
    parseLoop fuel { rest, eof := false, fail := false } line values =
      (fileLines rest ++ again rest).foldl appendLine values := by
  rw [parseLoop_readLoop, readLoop_eq appendLine hfuel]
  rcases again_cases rest with ⟨hagain, hleft⟩ | hagain
  · rw [hagain, hleft, List.append_nil, List.foldl_append, List.foldl_cons, List.foldl_nil, appendLine_nil]
  · rw [hagain]

theorem packageParse_eq (text : Str) :
    packageParse text = (fileLines text ++ again text).foldl appendLine fun _ => [] :=
  parseLoop_eq le_rfl [] _

/-- A tag object holds the values of the lines that go to it. -/
theorem foldl_appendLine (lines : List Str) (values : Tag → Str) (t : Tag) :
    lines.foldl appendLine values t =
      values t ++ (lines.filterMap fun line => (packageLine line).bind fun p =>
      if p.1 = t then some p.2 else none).flatMap
        fun value => value ++ ['\n'] := by
  induction lines generalizing values with
  | nil => simp
  | cons line lines ih =>
    rw [List.foldl_cons, ih, appendLine]
    cases hp : packageLine line with
    | none => simp [hp]
    | some p =>
      obtain ⟨t', value⟩ := p
      by_cases ht : t' = t
      · subst ht
        simp [hp]
      · simp [hp, ht, Function.update_of_ne (Ne.symm ht)]

/-- The value that the tag object for a definition takes from a line. -/
def packageValueOf (format line : Str) : Option Str :=
  (packageLine line).bind fun p => if some p.1 = packageTag format then some p.2 else none

theorem mem_again {line : Str} (h : line ∈ again text) : line ∈ fileLines text := by
  rw [again] at h
  split at h
  · simp at h
  · exact List.mem_of_getLast? (by simpa using h)

theorem packageValues_eq (text format : Str) :
    packageValues text format = (fileLines text ++ again text).filterMap (packageValueOf format) := by
  have hlines : ∀ line ∈ fileLines text ++ again text, '\n' ∉ line := by
    intro line hl
    rcases List.mem_append.mp hl with hl | hl
    · exact not_newline_of_line hl
    · exact not_newline_of_line (mem_again hl)
  rw [packageValues]
  cases ht : packageTag format with
  | none =>
    have hnone : ∀ line, packageValueOf format line = none := by
      intro line
      rw [packageValueOf, ht]
      cases packageLine line <;> simp
    rw [List.filterMap_eq_nil_iff.mpr fun line _ => hnone line]
  | some t =>
    have hsame : (fun line => (packageLine line).bind fun p => if p.1 = t then some p.2 else none) =
        packageValueOf format := by
      funext line
      rw [packageValueOf, ht]
      cases packageLine line <;> simp
    have hvalues : ∀ value ∈ (fileLines text ++ again text).filterMap (packageValueOf format),
      '\n' ∉ value := by
      intro value hvalue
      obtain ⟨line, hl, hsome⟩ := List.mem_filterMap.mp hvalue
      obtain ⟨p, hp, hp2⟩ := Option.bind_eq_some_iff.mp hsome
      obtain ⟨q, hq, hqp⟩ := Option.bind_eq_some_iff.mp hp
      obtain ⟨t', _, rfl⟩ := Option.map_eq_some_iff.mp hqp
      split at hp2
      next =>
        cases Option.some.inj hp2
        rw [splitLine] at hq
        split_ifs at hq
        cases Option.some.inj hq
        exact fun hmem => hlines line hl (List.mem_of_mem_drop hmem)
      next => cases hp2
    change fileLines (packageParse text t) = _
    rw [packageParse_eq, foldl_appendLine, hsame, List.nil_append]
    exact (fileLines_flatMap id hvalues).trans (List.map_id _)

/-- What the parsers take from a tag line. -/
theorem values_tagLine {format tag other : Str} (hf : format ∈ formatLines) (ht : tag ∈ aliases format)
    (ho : other ∈ formatLines) (value : Str) :
    luaValueOf other (tagLine tag value) = (if other = format then some (ltrim value) else none) ∧
      valueOf other (tagLine tag value) = (if other = format then some value else none) ∧
      packageValueOf other (tagLine tag value) =
        if other = format ∧ (registered tag).isSome = true then some (' ' :: value) else none := by
  refine ⟨?_, ?_, ?_⟩
  · rw [luaValueOf, luaLine_tagLine hf ht, Option.bind_some]
    by_cases he : other = format
    · subst he
      simp
    · rw [if_neg he, if_neg fun h => he (luaName_inj format hf other ho h).symm]
  · rw [valueOf, shellValue_tagLine hf ht]
    by_cases he : other = format
    · rw [if_pos he, if_pos ((grepped_tagLine hf ht ho value).mpr he)]
    · rw [if_neg he, if_neg fun h => he ((grepped_tagLine hf ht ho value).mp h)]
  · rw [packageValueOf, packageLine, splitLine_tagLine hf ht, Option.bind_some]
    cases hr : registered tag with
    | none => simp
    | some t =>
      have hown : packageTag format = some t := by
        rcases registered_alias format hf tag ht with h | h
        · simp [hr] at h
        · rw [← h, hr]
      by_cases he : other = format
      · subst he
        simp [hown]
      · have hne : some t ≠ packageTag other := by
          intro h
          rcases packageTag_inj format hf other ho (hown.trans h) with h | h
          · simp [hown] at h
          · exact he h.symm
        simp [he, hne]

theorem values_other {line : Str} (h : line.head? = some '#' ∨ ∀ c ∈ line, c = ' ' ∨ c = '\t')
    (format : Str) :
    valueOf format line = none ∧ packageValueOf format line = none ∧
      (line.head? = some '#' ∨ luaValueOf format line = none) := by
  obtain ⟨hsplit, hgrep, hlua⟩ := other_line h
  refine ⟨by simp [valueOf, hgrep], by simp [packageValueOf, packageLine, hsplit], ?_⟩
  rcases hlua with hlua | hlua
  · exact .inl hlua
  · exact .inr (by simp [luaValueOf, hlua])

/-- Whatever Lua finds in a line is a value for some definition. -/
theorem luaValueOf_of_luaLine {line : Str} {p : Str × Str} (h : luaLine line = some p) :
    ∃ format ∈ formatLines, luaValueOf format line = some p.2 := by
  have hname : ∃ format ∈ formatLines, p.1 = luaName format := by
    rw [luaLine] at h
    split at h
    next tag cnt _ =>
      obtain ⟨name, hn, rfl⟩ := Option.map_eq_some_iff.mp h
      obtain ⟨format, hfind, rfl⟩ := Option.map_eq_some_iff.mp hn
      exact ⟨format, List.mem_reverse.mp (List.mem_of_find?_eq_some hfind), rfl⟩
    next => cases h
  obtain ⟨format, hf, hp⟩ := hname
  exact ⟨format, hf, by rw [luaValueOf, h, Option.bind_some, if_pos hp]⟩

end Files

section Agreement

variable {text : Str}

/-- No comment line holds what Lua takes for a tag. -/
def SafeComments (text : Str) : Prop := ∀ line ∈ fileLines text, line.head? = some '#' → luaLine line = none

def NoTags (text : Str) : Prop := ∀ line ∈ fileLines text, ∀ format ∈ formatLines, ∀ value,
    ¬IsTag line format value

/-- One blank only stands between a tag and its value. -/
def OneBlank (text : Str) : Prop :=
  ∀ line ∈ fileLines text, ∀ format ∈ formatLines, ∀ value, IsTag line format value → value.head? ≠ some ' '

/-- The last value of a tag is not empty. -/
def LastFilled (text : Str) : Prop :=
  ∀ format ∈ formatLines, ((fileLines text).filterMap (valueOf format)).getLast? ≠ some []

/-- The tags of the file are known to `Package`, and a tag line is ended where it is the last. -/
def Registered (text : Str) : Prop :=
  (∀ line ∈ fileLines text, ∀ format ∈ formatLines, ∀ tag ∈ aliases format, ∀ value,
    line = tagLine tag value →
    (registered tag).isSome = true) ∧
  ∀ line ∈ again text, ∀ format ∈ formatLines, ∀ value, ¬IsTag line format value

theorem head_ltrim (value : Str) : (ltrim value).head? ≠ some ' ' := by
  have hhead := List.head?_dropWhile_not (· == ' ') value
  intro h
  rw [← ltrim, h] at hhead
  simp at hhead

theorem ltrim_eq_iff (value : Str) : ltrim value = value ↔ value.head? ≠ some ' ' := by
  constructor
  · intro h
    rw [← h]
    exact head_ltrim value
  · intro h
    cases value with
    | nil => rfl
    | cons c value =>
      have hc : c ≠ ' ' := by simpa using h
      exact List.dropWhile_cons_of_neg (by simpa using hc)

/-- A line without a tag that is safe for Lua gives no value. -/
theorem no_values (h : IsDesc text) (hsafe : SafeComments text) {line : Str} (hl : line ∈ fileLines text)
    (hno : ∀ format ∈ formatLines, ∀ value, ¬IsTag line format value) (format : Str) :
    luaValueOf format line = none ∧ valueOf format line = none ∧ packageValueOf format line = none := by
  rcases h.cases hl with ⟨other, ho, tag, ht, value, rfl⟩ | hother
  · exact absurd ⟨tag, ht, rfl⟩ (hno other ho value)
  · obtain ⟨hvalue, hpackage, hlua⟩ := values_other hother format
    refine ⟨?_, hvalue, hpackage⟩
    rcases hlua with hhash | hlua
    · rw [luaValueOf, hsafe line hl hhash]
      rfl
    · exact hlua

/-- Every value of `Package` begins with the blank in front of it. -/
theorem packageValues_head (h : IsDesc text) {format : Str} (hf : format ∈ formatLines) {value : Str}
    (hv : value ∈ packageValues text format) :
    value.head? = some ' ' ∧ ∃ line ∈ fileLines text, ∃ v, IsTag line format v := by
  rw [packageValues_eq] at hv
  obtain ⟨line, hl, hsome⟩ := List.mem_filterMap.mp hv
  have hl : line ∈ fileLines text := (List.mem_append.mp hl).elim id mem_again
  rcases h.cases hl with ⟨other, ho, tag, ht, v, rfl⟩ | hother
  · rw [(values_tagLine ho ht hf v).2.2] at hsome
    split at hsome
    next hboth =>
      cases Option.some.inj hsome
      obtain ⟨rfl, _⟩ := hboth
      exact ⟨rfl, _, hl, v, tag, ht, rfl⟩
    next => cases hsome
  · rw [(values_other hother format).2.1] at hsome
    cases hsome

theorem agree_iff (h : IsDesc text) :
    (∀ format ∈ formatLines, luaValues text format = packageValues text format ∧
      luaValues text format = descValues text format) ↔ NoTags text ∧ SafeComments text := by
  constructor
  · intro hagree
    have hno : NoTags text := by
      rintro line hl format hf value ⟨tag, ht, rfl⟩
      have hmem : ltrim value ∈ luaValues text format := by
        rw [luaValues_eq, List.mem_filterMap]
        exact ⟨_, hl, (values_tagLine hf ht hf value).1.trans (if_pos rfl)⟩
      rw [(hagree format hf).1] at hmem
      exact head_ltrim value (packageValues_head h hf hmem).1
    refine ⟨hno, ?_⟩
    intro line hl _
    cases hlua : luaLine line with
    | none => rfl
    | some p =>
      obtain ⟨format, hf, hvalue⟩ := luaValueOf_of_luaLine hlua
      have hmem : p.2 ∈ luaValues text format := by
        rw [luaValues_eq, List.mem_filterMap]
        exact ⟨line, hl, hvalue⟩
      rw [(hagree format hf).1] at hmem
      obtain ⟨line', hl', v, htag⟩ := (packageValues_head h hf hmem).2
      exact absurd htag (hno line' hl' format hf v)
  · rintro ⟨hno, hsafe⟩ format hf
    have hnone {line : Str} (hl : line ∈ fileLines text) := no_values h hsafe hl (hno line hl) format
    have hlua : luaValues text format = [] := by
      rw [luaValues_eq, List.filterMap_eq_nil_iff]
      exact fun line hl => (hnone hl).1
    have hdesc : descValues text format = [] := by
      rw [descValues_eq hf, List.filterMap_eq_nil_iff.mpr fun line hl => (hnone hl).2.1]
      rfl
    have hpackage : packageValues text format = [] := by
      rw [packageValues_eq, List.filterMap_eq_nil_iff]
      exact fun line hl => (hnone ((List.mem_append.mp hl).elim id mem_again)).2.2
    rw [hlua, hdesc, hpackage]
    exact ⟨rfl, rfl⟩

/-- Two readings of the same lines where the first finds a value wherever the second does. -/
theorem filterMap_lengths {α : Type} {f g : α → Option Str} {xs : List α}
    (h : ∀ x ∈ xs, (g x).isSome = true → (f x).isSome = true) :
    (xs.filterMap g).length ≤ (xs.filterMap f).length ∧
      ((xs.filterMap f).length ≤ (xs.filterMap g).length → ∀ x ∈ xs,
      (f x).isSome = true → (g x).isSome = true) := by
  induction xs with
  | nil => simp
  | cons x xs ih =>
    obtain ⟨hle, heq⟩ := ih fun y hy => h y (List.mem_cons_of_mem _ hy)
    have hx := h x List.mem_cons_self
    cases hf : f x with
    | none =>
      have hg : g x = none := by
        rw [hf] at hx
        simpa using hx
      simp only [List.filterMap_cons_none hf, List.filterMap_cons_none hg]
      refine ⟨hle, fun hlen => List.forall_mem_cons.mpr ⟨by simp [hf], heq hlen⟩⟩
    | some v =>
      rw [List.filterMap_cons_some hf]
      cases hg : g x with
      | none =>
        rw [List.filterMap_cons_none hg, List.length_cons]
        exact ⟨by omega, fun hlen => by omega⟩
      | some w =>
        rw [List.filterMap_cons_some hg, List.length_cons, List.length_cons]
        refine ⟨by omega, fun hlen => List.forall_mem_cons.mpr ⟨by simp [hg], heq (by omega)⟩⟩

theorem filterMap_pointwise {α : Type} {f g : α → Option Str} {xs : List α}
    (h : ∀ x ∈ xs, (f x).isSome = (g x).isSome) (heq : xs.filterMap f = xs.filterMap g) :
    ∀ x ∈ xs, f x = g x := by
  induction xs with
  | nil => simp
  | cons x xs ih =>
    rw [List.forall_mem_cons] at h ⊢
    cases hf : f x with
    | none =>
      have hg : g x = none := by simpa [hf] using h.1.symm
      rw [List.filterMap_cons_none hf, List.filterMap_cons_none hg] at heq
      exact ⟨hg.symm, ih h.2 heq⟩
    | some v =>
      obtain ⟨w, hg⟩ := Option.isSome_iff_exists.mp (by simpa [hf] using h.1.symm)
      rw [List.filterMap_cons_some hf, List.filterMap_cons_some hg, List.cons.injEq] at heq
      exact ⟨by rw [hg, heq.1], ih h.2 heq.2⟩

theorem rdropWhile_length (xs : List Str) :
    (xs.rdropWhile (· == [])).length ≤ xs.length ∧
      (xs.length ≤ (xs.rdropWhile (· == [])).length ↔ xs.getLast? ≠ some []) ∧
      (xs.getLast? ≠ some [] → xs.rdropWhile (· == []) = xs) := by
  induction xs using List.reverseRecOn with
  | nil => simp
  | append_singleton xs x ih =>
    by_cases hx : x = []
    · subst hx
      have hle := ih.1
      rw [List.rdropWhile_concat_pos _ _ _ rfl]
      simp only [List.length_append, List.length_singleton, List.getLast?_append, List.getLast?_singleton]
      exact ⟨by omega, iff_of_false (by omega) (by simp), by simp⟩
    · rw [List.rdropWhile_concat_neg _ _ _ (by simpa using hx)]
      simp [hx]

/-- The shell has a value from a line only where Lua has one. -/
theorem isSome_luaValueOf (h : IsDesc text) {format : Str} (hf : format ∈ formatLines) {line : Str}
    (hl : line ∈ fileLines text) (hsome : (valueOf format line).isSome = true) :
    (luaValueOf format line).isSome = true := by
  rcases h.cases hl with ⟨other, ho, tag, ht, value, rfl⟩ | hother
  · obtain ⟨hlua, hvalue, _⟩ := values_tagLine ho ht hf value
    rw [hvalue] at hsome
    rw [hlua]
    split at hsome
    next he => simp [he]
    next => simp at hsome
  · rw [(values_other hother format).1] at hsome
    simp at hsome

theorem lua_desc_agree_iff (h : IsDesc text) :
    (∀ format ∈ formatLines, luaValues text format = descValues text format) ↔
      SafeComments text ∧ OneBlank text ∧ LastFilled text := by
  constructor
  · intro hagree
    have hfull (format : Str) (hf : format ∈ formatLines) :
        ((fileLines text).filterMap (valueOf format)).getLast? ≠ some [] ∧
          ∀ line ∈ fileLines text, luaValueOf format line = valueOf format line := by
      have heq := hagree format hf
      rw [luaValues_eq, descValues_eq hf] at heq
      have hdrop := rdropWhile_length ((fileLines text).filterMap (valueOf format))
      obtain ⟨hle, hback⟩ := filterMap_lengths (f := luaValueOf format) (g := valueOf format)
        fun line hl => isSome_luaValueOf h hf hl
      have hlen := congrArg List.length heq
      have hlast := hdrop.2.1.mp (by omega)
      refine ⟨hlast, ?_⟩
      rw [hdrop.2.2 hlast] at heq
      have hdrop1 := hdrop.1
      refine filterMap_pointwise (fun line hl => ?_) heq
      exact Bool.eq_iff_iff.mpr ⟨hback (by omega) line hl, isSome_luaValueOf h hf hl⟩
    refine ⟨?_, ?_, fun format hf => (hfull format hf).1⟩
    · intro line hl hhash
      cases hlua : luaLine line with
      | none => rfl
      | some p =>
        obtain ⟨format, hf, hvalue⟩ := luaValueOf_of_luaLine hlua
        have hsame := (hfull format hf).2 line hl
        rw [hvalue, (values_other (.inl hhash) format).1] at hsame
        cases hsame
    · rintro line hl format hf value ⟨tag, ht, rfl⟩
      obtain ⟨hlua, hvalue, _⟩ := values_tagLine hf ht hf value
      have hsame := hlua.symm.trans (((hfull format hf).2 _ hl).trans hvalue)
      rw [if_pos rfl, if_pos rfl] at hsame
      exact (ltrim_eq_iff value).mp (Option.some.inj hsame)
  · rintro ⟨hsafe, hblank, hlast⟩ format hf
    rw [luaValues_eq, descValues_eq hf, (rdropWhile_length _).2.2 (hlast format hf)]
    refine List.filterMap_congr fun line hl => ?_
    rcases h.cases hl with ⟨other, ho, tag, ht, value, rfl⟩ | hother
    · obtain ⟨hlua, hvalue, _⟩ := values_tagLine ho ht hf value
      rw [hlua, hvalue, (ltrim_eq_iff value).mpr (hblank _ hl other ho value ⟨tag, ht, rfl⟩)]
    · obtain ⟨hvalue, _, hlua⟩ := values_other hother format
      rw [hvalue]
      rcases hlua with hhash | hlua
      · rw [luaValueOf, hsafe line hl hhash]
        rfl
      · exact hlua

theorem lua_package_agree (h : IsDesc text) (hsafe : SafeComments text) (hblank : OneBlank text)
    (hreg : Registered text) {format : Str} (hf : format ∈ formatLines) :
    (packageValues text format).map (List.drop 1) = luaValues text format := by
  have hagain : (again text).filterMap (packageValueOf format) = [] := by
    rw [List.filterMap_eq_nil_iff]
    intro line hl
    exact (no_values h hsafe (mem_again hl) (hreg.2 line hl) format).2.2
  rw [packageValues_eq, List.filterMap_append, hagain, List.append_nil, luaValues_eq, List.map_filterMap]
  refine List.filterMap_congr fun line hl => ?_
  rcases h.cases hl with ⟨other, ho, tag, ht, value, rfl⟩ | hother
  · obtain ⟨hlua, _, hpackage⟩ := values_tagLine ho ht hf value
    have hknown := hreg.1 _ hl other ho tag ht value rfl
    rw [hlua, hpackage, (ltrim_eq_iff value).mpr (hblank _ hl other ho value ⟨tag, ht, rfl⟩)]
    by_cases he : format = other <;> simp [he, hknown]
  · obtain ⟨_, hpackage, hlua⟩ := values_other hother format
    rw [hpackage]
    rcases hlua with hhash | hlua
    · rw [luaValueOf, hsafe line hl hhash]
      rfl
    · rw [hlua]
      rfl

/-- All three parsers agree exactly on files without tags; Lua and the shell agree exactly where
every tag has one blank behind it and a last value; and `Package` has the same values up to that
blank where it knows the tags. -/
theorem parsers_agree_iff (h : IsDesc text) :
    ((∀ format ∈ formatLines, luaValues text format = packageValues text format ∧
      luaValues text format = descValues text format) ↔ NoTags text ∧ SafeComments text) ∧
    ((∀ format ∈ formatLines, luaValues text format = descValues text format) ↔
      SafeComments text ∧ OneBlank text ∧ LastFilled text) ∧
    (SafeComments text → OneBlank text → Registered text →
      ∀ format ∈ formatLines, (packageValues text format).map (List.drop 1) = luaValues text format) :=
  ⟨agree_iff h, lua_desc_agree_iff h, fun hsafe hblank hreg _ hf => lua_package_agree h hsafe hblank hreg hf⟩

theorem parsers_agree_iff_sample :
    luaValues "[I] Title\n".toList "[I] [TITLE] (1) (*)".toList =
    descValues "[I] Title\n".toList "[I] [TITLE] (1) (*)".toList := by
  have hlines : fileLines "[I] Title\n".toList = ["[I] Title".toList] := by decide +kernel
  have hdesc : IsDesc "[I] Title\n".toList := by
    refine ⟨by decide, ?_⟩
    rw [hlines, List.forall_mem_singleton]
    exact .inl ⟨"[I] [TITLE] (1) (*)".toList,
      by decide +kernel, "Title".toList, "I".toList, by decide +kernel, by decide⟩
  refine (parsers_agree_iff hdesc).2.1.mpr ⟨?_, ?_, ?_⟩ _ (by decide +kernel)
  · rw [SafeComments, hlines, List.forall_mem_singleton]
    decide
  · rw [OneBlank, hlines, List.forall_mem_singleton]
    rintro format hf value ⟨tag, ht, hline⟩
    have hvalue := shellValue_tagLine hf ht value
    rw [tagLine, ← hline] at hvalue
    rw [← hvalue]
    decide
  · unfold LastFilled
    decide +kernel

/-- A file with the documented aliases: the blank, the alias and the comment. -/
theorem parsers_differ :
    (luaValues "[I] foo\n".toList "[I] [TITLE] (1) (*)".toList = ["foo".toList] ∧
      packageValues "[I] foo\n".toList "[I] [TITLE] (1) (*)".toList = [" foo".toList]) ∧
    (luaValues "[TITLE] foo\n".toList "[I] [TITLE] (1) (*)".toList = ["foo".toList] ∧
      packageValues "[TITLE] foo\n".toList "[I] [TITLE] (1) (*)".toList = []) ∧
    (luaValues "# see [I] bar\n[I] foo\n".toList "[I] [TITLE] (1) (*)".toList = ["bar".toList, "foo".toList] ∧
      descValues "# see [I] bar\n[I] foo\n".toList "[I] [TITLE] (1) (*)".toList = ["foo".toList]) ∧
    (luaValues "[T]  foo\n".toList "[T] [TEXT] (*)".toList = ["foo".toList] ∧
      descValues "[T]  foo\n".toList "[T] [TEXT] (*)".toList = [" foo".toList]) ∧
    packageValues "[I] foo".toList "[I] [TITLE] (1) (*)".toList = [" foo".toList, " foo".toList] := by
  decide +kernel

end Agreement

end T2SDE.DescParsers
