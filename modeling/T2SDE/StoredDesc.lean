import T2SDE.DescParsers
import T2SDE.Lib.CString
import T2SDE.Lib.Joined
import T2SDE.Lib.ShellFields

namespace T2SDE.StoredDesc

open Text ShellFields DescParsers

section Program

/-- The first dash of a tag as an underscore. -/
def fieldName : Str → Str
  | [] => []
  | c :: s => if c = '-' then '_' :: s else c :: fieldName s

def nameChar (c : Char) : Bool := c.isAlphanum || c == '_'

/-- `echo ${x// */} | tr -d '[]'`; no word of it has a character of any IFS. -/
def readTag (glob : Str → List Str) (x : Str) : Str :=
  let words := splitGlob ['\n'] glob (x.takeWhile (· != ' '))
  (([' '].intercalate words ++ ['\n']).filter fun c => c != '[' && c != ']').rdropWhile (· == '\n')

/-- The loop over PKG-DESC-FORMAT, from some line of it on; a bad substitution ends the subshell. -/
def writeTags (glob : Str → List Str) (vars : List (Str × Str)) : List Str → List Str
  | [] => []
  | x :: rest =>
    let tag := readTag glob x
    if (fieldName tag).all nameChar then
      (splitGlob ['\n'] glob (descVar vars (fieldName tag))).map (tagLine tag) ++ writeTags glob vars rest
    else []

def configLine (config : Str) : Str := "[CONFIG] ".toList ++ config

/-- var/adm/descs/$xpkg -/
def writeDesc (glob : Str → List Str) (config : Str) (vars : List (Str × Str)) : Str :=
  (configLine config :: writeTags glob vars formatLines).flatMap (· ++ ['\n'])

end Program

section Purpose

/-- A line `[TAG] value`; without a value the blank may be left out. -/
structure TagLine where
  format : Str
  tag : Str
  value : Str
  bare : Bool
  format_mem : format ∈ formatLines
  tag_mem : tag ∈ aliases format
  bare_empty : bare = true → value = []

def TagLine.text (t : TagLine) : Str := if t.bare then '[' :: (t.tag ++ [']']) else tagLine t.tag t.value

inductive DescLine
  | tag (t : TagLine)
  | comment (text : Str)
  | blank (text : Str) (h : ∀ c ∈ text, c = ' ' ∨ c = '\t')

def DescLine.text : DescLine → Str
  | tag t => t.text
  | comment text => '#' :: text
  | blank text _ => text

def DescLine.value (format : Str) : DescLine → Option Str
  | tag t => if t.format = format then some t.value else none
  | _ => none

/-- A .desc file. -/
structure Desc where
  text : Str
  lines : List DescLine
  text_lines : fileLines text = lines.map DescLine.text
  text_plain : CString.nul ∉ text

/-- The values of a tag, by any of its aliases. -/
def Desc.values (d : Desc) (format : Str) : List Str := d.lines.filterMap (DescLine.value format)

def canonical (format : Str) : Str := (aliases format).headD []

/-- The directory that Build-Pkg is in, $xroot, with the names that a pattern finds there. -/
structure Site where
  config : Str
  config_line : '\n' ∉ config
  glob : Str → List Str
  glob_some : ∀ s, s ≠ [] → glob s ≠ [] ∧ [] ∉ glob s

def Site.stored (s : Site) (d : Desc) : Str := writeDesc s.glob s.config (parseDesc d.text)

/-- The file has the values of each tag as lines of its canonical name, and is parsed like the .desc file. -/
def Stored (s : Site) (d : Desc) : Prop :=
  (∀ format ∈ formatLines,
    ((fileLines (s.stored d)).filter fun line => ('[' :: (canonical format ++ [']'])).isPrefixOf line) =
      (d.values format).map (tagLine (canonical format))) ∧
    parseDesc (s.stored d) = parseDesc d.text

/-- The tag definitions find nothing but themselves, or their one letter. -/
def Quiet (s : Site) : Prop := ∀ format ∈ formatLines,
  s.glob ('[' :: (canonical format ++ [']'])) = ['[' :: (canonical format ++ [']'])] ∨
    s.glob ('[' :: (canonical format ++ [']'])) = [canonical format]

def NoNewlines (s : Site) : Prop := ∀ pattern, '\n' ∉ pattern → ∀ name ∈ s.glob pattern, '\n' ∉ name

/-- No value is empty, and as patterns they find nothing but themselves. -/
def Kept (s : Site) (d : Desc) : Prop :=
  ∀ format ∈ formatLines, ∀ value ∈ d.values format, value ≠ [] ∧ s.glob value = [value]

end Purpose

section Tags

variable {glob : Str → List Str} {format x : Str}

/-- The names that the loop derives from a line of PKG-DESC-FORMAT. -/
theorem names_fit : ∀ format ∈ formatLines,
    canonical format ∈ aliases format ∧
      format.takeWhile (· != ' ') = '[' :: (canonical format ++ [']']) ∧
      (canonical format).all (fun c => c != '[' && c != '\n') = true ∧
      fieldName (canonical format) = descName format ∧ (descName format).all nameChar = true ∧
      "CONFIG".toList ∉ aliases format := by
  rw [formatLines]
  repeat rw [String.toList_ofList]
  decide +kernel

theorem canonical_mem (hf : format ∈ formatLines) : canonical format ∈ aliases format :=
  (names_fit format hf).1

theorem canonical_plain (hf : format ∈ formatLines) :
    ∀ c ∈ canonical format, c ≠ '[' ∧ c ≠ ']' ∧ c ≠ '\n' := by
  intro c hc
  have hall := List.all_eq_true.mp (names_fit format hf).2.2.1 c hc
  simp only [Bool.and_eq_true, bne_iff_ne] at hall
  exact ⟨hall.1, (alias_plain format hf _ (canonical_mem hf) c hc).1, hall.2⟩

theorem readTag_canonical (hf : format ∈ formatLines)
    (hglob : glob ('[' :: (canonical format ++ [']'])) = ['[' :: (canonical format ++ [']'])] ∨
      glob ('[' :: (canonical format ++ [']'])) = [canonical format]) :
    readTag glob format = canonical format := by
  have hplain := canonical_plain hf
  have hline : ∀ c ∈ '[' :: (canonical format ++ [']']), c ∉ ['\n'] := by
    intro c hc
    rw [List.mem_singleton]
    rcases List.mem_cons.mp hc with rfl | hc
    · decide
    · rcases List.mem_append.mp hc with hc | hc
      · exact (hplain c hc).2.2
      · rw [List.mem_singleton.mp hc]
        decide
  have hword : splitGlob ['\n'] glob (format.takeWhile (· != ' ')) =
    glob ('[' :: (canonical format ++ [']'])) := by
    rw [(names_fit format hf).2.1, splitGlob, fields_plain (List.cons_ne_nil _ _) hline,
      List.flatMap_singleton]
  have hkeep : (canonical format).filter (fun c => c != '[' && c != ']') = canonical format := by
    rw [List.filter_eq_self]
    intro c hc
    simp [(hplain c hc).1, (hplain c hc).2.1]
  have hcut : (canonical format ++ ['\n']).rdropWhile (· == '\n') = canonical format := by
    rw [List.rdropWhile_concat_pos _ _ _ rfl]
    rcases List.eq_nil_or_concat (canonical format) with hnil | ⟨w, c, hc⟩
    · rw [hnil]
      rfl
    · rw [hc, List.concat_eq_append]
      refine List.rdropWhile_concat_neg _ _ _ ?_
      simpa using (hplain c (by simp [hc])).2.2
  rw [readTag, hword]
  rcases hglob with hglob | hglob
  · simpa [hglob, List.intercalate, hkeep] using hcut
  · simpa [hglob, List.intercalate, hkeep] using hcut

/-- The loop, where the tag definitions find nothing else. -/
theorem writeTags_eq (hquiet : ∀ format ∈ formatLines,
    glob ('[' :: (canonical format ++ [']'])) = ['[' :: (canonical format ++ [']'])] ∨
      glob ('[' :: (canonical format ++ [']'])) = [canonical format]) (text : Str) :
    writeTags glob (parseDesc text) formatLines = formatLines.flatMap fun format =>
      (splitGlob ['\n'] glob (tagdata text format)).map (tagLine (canonical format)) := by
  have hrest : ∀ formats : List Str, (∀ format ∈ formats, format ∈ formatLines) →
      writeTags glob (parseDesc text) formats = formats.flatMap fun format =>
        (splitGlob ['\n'] glob (tagdata text format)).map (tagLine (canonical format)) := by
    intro formats hformats
    induction formats with
    | nil => rfl
    | cons format formats ih =>
      have hf := hformats format List.mem_cons_self
      obtain ⟨-, -, -, hname, hchars, -⟩ := names_fit format hf
      rw [writeTags, readTag_canonical hf (hquiet format hf), hname, if_pos hchars, descVar_parseDesc hf,
        ih fun other ho => hformats other (List.mem_cons_of_mem format ho), List.flatMap_cons]
  exact hrest formatLines fun _ hf => hf

end Tags

section Fields

variable {vs : List Str}

/-- What a variable that was set to some lines is split into at newlines. -/
theorem fields_substituted (hvs : ∀ v ∈ vs, '\n' ∉ v) :
    fields ['\n'] (substituted vs) = vs.filter (· ≠ []) := by
  have hlines : ∀ vs : List Str, (∀ v ∈ vs, '\n' ∉ v) →
      tokens (· ∈ ['\n']) (vs.flatMap (· ++ ['\n'])) = vs.filter (· ≠ []) := by
    intro vs hvs
    induction vs with
    | nil => rfl
    | cons v vs ih =>
      have hfree : ∀ c ∈ v, decide (c ∈ ['\n']) = false := fun c hc => by
        simpa using fun h : c = '\n' => hvs v List.mem_cons_self (h ▸ hc)
      have hcut : tokens (· ∈ ['\n']) (v ++ '\n' :: vs.flatMap (· ++ ['\n'])) =
          tokens (· ∈ ['\n']) v ++ tokens (· ∈ ['\n']) (vs.flatMap (· ++ ['\n'])) := tokens_append_sep rfl v _
      rw [List.flatMap_cons, List.append_assoc, List.singleton_append, hcut,
        ih fun w hw => hvs w (List.mem_cons_of_mem v hw)]
      by_cases hv : v = []
      · simp [hv]
      · rw [tokens_word hv hfree, List.filter_cons_of_pos (by simpa using hv)]
        rfl
  have hend : ∀ s : Str, tokens (· ∈ ['\n']) (s.rdropWhile (· == '\n')) = tokens (· ∈ ['\n']) s := by
    intro s
    induction s using List.reverseRecOn with
    | nil => rfl
    | append_singleton s c ih =>
      by_cases hc : c = '\n'
      · subst hc
        have hcut : tokens (· ∈ ['\n']) (s ++ '\n' :: []) = tokens (· ∈ ['\n']) s ++ tokens (· ∈ ['\n']) [] :=
          tokens_append_sep rfl s []
        rw [List.rdropWhile_concat_pos _ _ _ rfl, ih, hcut, tokens_nil, List.append_nil]
      · rw [List.rdropWhile_concat_neg _ _ _ (by simpa using hc)]
  rw [fields_white (by simp [white]), substituted, hend]
  exact hlines vs hvs

end Fields

section Values

variable {d : Desc} {format other : Str} {l : DescLine} {t : TagLine}

theorem bare_grepped (hf : format ∈ formatLines) (ho : other ∈ formatLines) {tag : Str}
    (ht : tag ∈ aliases format) :
    grepped other ('[' :: (tag ++ [']'])) = true ↔ other = format := by
  rw [← grepped_tagLine hf ht ho [], grepped, grepped, List.any_eq_true, List.any_eq_true]
  have hlong : tagLine tag [] = '[' :: (tag ++ [']']) ++ [' '] := by simp [tagLine]
  constructor
  · rintro ⟨a, ha, h⟩
    refine ⟨a, ha, List.isPrefixOf_iff_prefix.mpr ((List.isPrefixOf_iff_prefix.mp h).trans ?_)⟩
    rw [hlong]
    exact List.prefix_append _ _
  · rintro ⟨a, ha, h⟩
    have haa : a ∈ aliases other := shellTags_eq other ho ▸ ha
    obtain rfl := eq_of_tag_prefix (alias_plain other ho a haa) (alias_plain format hf tag ht) h
    exact ⟨a, ha, List.isPrefixOf_iff_prefix.mpr (List.prefix_refl _)⟩

theorem bare_shellValue (hf : format ∈ formatLines) {tag : Str} (ht : tag ∈ aliases format) :
    shellValue ('[' :: (tag ++ [']'])) = [] := by
  have hall : ∀ c ∈ '[' :: tag, (c != ']') = true := by
    intro c hc
    rcases List.mem_cons.mp hc with rfl | hc
    · rfl
    · simpa using (alias_plain format hf tag ht c hc).1
  rw [shellValue, ← List.cons_append, List.dropWhile_append_of_pos hall,
    List.dropWhile_cons_of_neg (by decide)]
  rfl

/-- What `parse_desc` takes from a line is its value. -/
theorem valueOf_line (hf : format ∈ formatLines) (l : DescLine) : valueOf format l.text = l.value format := by
  cases l with
  | tag t =>
    have htext : (grepped format t.text = true ↔ format = t.format) ∧ shellValue t.text = t.value := by
      rw [TagLine.text]
      split_ifs with hbare
      · rw [t.bare_empty hbare]
        exact ⟨bare_grepped t.format_mem hf t.tag_mem, bare_shellValue t.format_mem t.tag_mem⟩
      · exact ⟨grepped_tagLine t.format_mem t.tag_mem hf t.value,
          shellValue_tagLine t.format_mem t.tag_mem t.value⟩
    rw [DescLine.text, DescLine.value, valueOf, htext.2]
    by_cases hformat : t.format = format
    · rw [if_pos (htext.1.mpr hformat.symm), if_pos hformat]
    · rw [if_neg fun h => hformat (htext.1.mp h).symm, if_neg hformat]
  | comment text =>
    have hhead : ('#' :: text).head? = some '#' := rfl
    have hno := (other_line (.inl hhead)).2.1 format
    simp [DescLine.text, DescLine.value, valueOf, hno]
  | blank text h =>
    have hno := (other_line (.inr h)).2.1 format
    simp [DescLine.text, DescLine.value, valueOf, hno]

theorem grepped_values (hf : format ∈ formatLines) (d : Desc) :
    ((fileLines d.text).filter (grepped format)).map shellValue = d.values format := by
  have hlines : ((fileLines d.text).filter (grepped format)).map shellValue =
      (fileLines d.text).filterMap (valueOf format) := (filterMap_ite ..).symm
  rw [hlines, d.text_lines, List.filterMap_map, Desc.values]
  exact congrArg (List.filterMap · d.lines) (funext fun l => valueOf_line hf l)

theorem tagdata_values (hf : format ∈ formatLines) (d : Desc) :
    tagdata d.text format = substituted (d.values format) := by
  rw [tagdata, grepped_values hf]

theorem value_line (d : Desc) {value : Str} (hv : value ∈ d.values format) : '\n' ∉ value := by
  obtain ⟨l, hl, hvalue⟩ := List.mem_filterMap.mp hv
  have hline : l.text ∈ fileLines d.text := d.text_lines ▸ List.mem_map_of_mem hl
  cases l with
  | tag t =>
    rw [DescLine.value] at hvalue
    split_ifs at hvalue
    obtain rfl := Option.some.inj hvalue
    rw [DescLine.text, TagLine.text] at hline
    split_ifs at hline with hbare
    · rw [t.bare_empty hbare]
      exact List.not_mem_nil
    · intro hmem
      exact not_newline_of_line hline (by simp [tagLine, hmem])
  | comment text => cases hvalue
  | blank text h => cases hvalue

end Values

section Files

variable {s : Site} {d : Desc} {format : Str}

/-- The words that become the lines of a tag. -/
def words (s : Site) (d : Desc) (format : Str) : List Str :=
  ((d.values format).filter (· ≠ [])).flatMap s.glob

def storedLines (s : Site) (d : Desc) : List Str :=
  configLine s.config :: formatLines.flatMap fun format => (words s d format).map (tagLine (canonical format))

theorem stored_eq (hquiet : Quiet s) (d : Desc) : s.stored d = (storedLines s d).flatMap (· ++ ['\n']) := by
  have hwords : ∀ format ∈ formatLines, splitGlob ['\n'] s.glob (tagdata d.text format) =
    words s d format := by
    intro format hf
    rw [splitGlob, tagdata_values hf, fields_substituted fun v hv => value_line d hv, words]
  rw [Site.stored, writeDesc, writeTags_eq hquiet, storedLines]
  congr 2
  exact List.flatMap_congr fun format hf => by rw [hwords format hf]

theorem fileLines_stored (hquiet : Quiet s) (hlines :
    ∀ format ∈ formatLines, ∀ w ∈ words s d format, '\n' ∉ w) :
    fileLines (s.stored d) = storedLines s d := by
  rw [stored_eq hquiet]
  refine (fileLines_flatMap id ?_).trans (List.map_id _)
  intro line hline
  rcases List.mem_cons.mp hline with rfl | hline
  · intro hmem
    rcases List.mem_append.mp hmem with hmem | hmem
    · exact absurd hmem (by decide)
    · exact s.config_line hmem
  · obtain ⟨format, hf, hline⟩ := List.mem_flatMap.mp hline
    obtain ⟨w, hw, rfl⟩ := List.mem_map.mp hline
    have htag := fun c hc => (canonical_plain hf c hc).2.2
    have hword := hlines format hf w hw
    simp only [id, tagLine, List.mem_cons, List.mem_append, not_or]
    exact ⟨by decide, fun hmem => htag _ hmem rfl, by decide, by decide, hword⟩

/-- The lines of one tag, picked by a test that knows the tags. -/
theorem filter_stored (hf : format ∈ formatLines) {p : Str → Bool} (hconfig : p (configLine s.config) = false)
    (hp : ∀ other ∈ formatLines, ∀ w, p (tagLine (canonical other) w) = true ↔ other = format) :
    (storedLines s d).filter p = (words s d format).map (tagLine (canonical format)) := by
  have hnodup : formatLines.Nodup := by
    rw [formatLines]
    repeat rw [String.toList_ofList]
    decide +kernel
  have hpick : ∀ formats : List Str, (∀ other ∈ formats, other ∈ formatLines) → formats.Nodup →
      (formats.flatMap fun other => (words s d other).map (tagLine (canonical other))).filter p =
        if format ∈ formats then (words s d format).map (tagLine (canonical format)) else [] := by
    intro formats hformats hnodup
    induction formats with
    | nil => rfl
    | cons other formats ih =>
      have ho := hformats other List.mem_cons_self
      obtain ⟨hnot, hrest⟩ := List.nodup_cons.mp hnodup
      rw [List.flatMap_cons, List.filter_append,
        ih (fun x hx => hformats x (List.mem_cons_of_mem other hx)) hrest]
      by_cases heq : other = format
      · subst heq
        rw [if_neg hnot, if_pos List.mem_cons_self, List.append_nil, List.filter_eq_self]
        intro line hline
        obtain ⟨w, _, rfl⟩ := List.mem_map.mp hline
        exact (hp other ho w).mpr rfl
      · have hnone : ((words s d other).map (tagLine (canonical other))).filter p = [] := by
          rw [List.filter_eq_nil_iff]
          intro line hline
          obtain ⟨w, _, rfl⟩ := List.mem_map.mp hline
          exact fun h => heq ((hp other ho w).mp h)
        have hmem : format ∈ other :: formats ↔ format ∈ formats := by simp [Ne.symm heq]
        rw [hnone, List.nil_append]
        simp only [hmem]
  rw [storedLines, List.filter_cons_of_neg (by simp [hconfig]), hpick formatLines (fun _ h => h) hnodup,
    if_pos hf]

theorem config_foreign (hf : format ∈ formatLines) {tag : Str} (ht : tag ∈ aliases format) (config : Str) :
    ('[' :: (tag ++ [']'])).isPrefixOf (configLine config) = false := by
  rw [Bool.eq_false_iff]
  intro h
  have hline : configLine config = tagLine "CONFIG".toList config := rfl
  rw [hline] at h
  have hall : ("CONFIG".toList.all fun c => c != ']' && c != ' ') = true := by
    rw [String.toList_ofList]
    rfl
  have hplain : ∀ c ∈ "CONFIG".toList, c ≠ ']' ∧ c ≠ ' ' := fun c hc => by
    simpa using List.all_eq_true.mp hall c hc
  have heq := eq_of_tag_prefix (alias_plain format hf tag ht) hplain h
  exact (names_fit format hf).2.2.2.2.2 (heq ▸ ht)

theorem canonical_lines (hf : format ∈ formatLines) (s : Site) (d : Desc) :
    ((storedLines s d).filter fun line => ('[' :: (canonical format ++ [']'])).isPrefixOf line) =
      (words s d format).map (tagLine (canonical format)) := by
  refine filter_stored hf (config_foreign hf (canonical_mem hf) s.config) fun other ho w => ⟨fun h => ?_, ?_⟩
  · have heq := eq_of_tag_prefix (alias_plain format hf _ (canonical_mem hf))
      (alias_plain other ho _ (canonical_mem ho)) h
    exact alias_unique other ho format hf _ (canonical_mem ho) (heq ▸ canonical_mem hf)
  · rintro rfl
    exact List.isPrefixOf_iff_prefix.mpr ⟨' ' :: w, by simp [tagLine]⟩

theorem grepped_lines (hf : format ∈ formatLines) (s : Site) (d : Desc) :
    (storedLines s d).filter (grepped format) = (words s d format).map (tagLine (canonical format)) := by
  refine filter_stored hf ?_ fun other ho w => ?_
  · rw [grepped, shellTags_eq format hf, List.any_eq_false]
    intro a ha
    rw [config_foreign hf ha s.config]
    exact Bool.false_ne_true
  · rw [grepped_tagLine ho (canonical_mem ho) hf w]
    exact eq_comm

theorem tagLine_inj {tag v w : Str} : tagLine tag v = tagLine tag w ↔ v = w := by simp [tagLine]

/-- The lines of a tag are its values if no word differs from its value. -/
theorem words_eq_iff (format : Str) (s : Site) (d : Desc) :
    words s d format = d.values format ↔ ∀ value ∈ d.values format, value ≠ [] ∧ s.glob value = [value] := by
  constructor
  · intro h
    have hne : ∀ value ∈ d.values format, value ≠ [] := by
      intro value hv
      rw [← h] at hv
      obtain ⟨v, hv, hvalue⟩ := List.mem_flatMap.mp hv
      have hvne : v ≠ [] := by simpa using (List.mem_filter.mp hv).2
      exact fun hnil => (s.glob_some v hvne).2 (hnil ▸ hvalue)
    have hall : (d.values format).filter (· ≠ []) = d.values format := by
      rw [List.filter_eq_self]
      exact fun v hv => by simpa using hne v hv
    rw [words, hall] at h
    have hself := flatMap_eq_self (fun v hv => (s.glob_some v (hne v hv)).1) h
    exact fun v hv => ⟨hne v hv, hself v hv⟩
  · intro h
    have hall : (d.values format).filter (· ≠ []) = d.values format := by
      rw [List.filter_eq_self]
      exact fun v hv => by simpa using (h v hv).1
    have hself : (d.values format).flatMap s.glob = (d.values format).flatMap ([·]) :=
      List.flatMap_congr fun v hv => (h v hv).2
    rw [words, hall, hself, List.flatMap_singleton']

end Files

/-- The stored description is the parsed one if the shell leaves every value as it is; where the names of
files have no newlines, it is needed as well. -/
theorem stored_iff (s : Site) (d : Desc) (hquiet : Quiet s) :
    (Kept s d → Stored s d) ∧ (NoNewlines s → (Stored s d ↔ Kept s d)) := by
  have hkept : Kept s d → Stored s d := by
    intro hkept
    have hwords : ∀ format ∈ formatLines, words s d format = d.values format :=
      fun format hf => (words_eq_iff format s d).mpr (hkept format hf)
    have hlines := fileLines_stored (d := d) hquiet fun format hf w hw => value_line d (hwords format hf ▸ hw)
    rw [Stored, hlines]
    refine ⟨fun format hf => by rw [canonical_lines hf, hwords format hf], ?_⟩
    have hdata : ∀ format ∈ formatLines, tagdata (s.stored d) format = tagdata d.text format := by
      intro format hf
      have hvalues : ((d.values format).map (tagLine (canonical format))).map shellValue =
        d.values format := by
        rw [List.map_map]
        refine (List.map_congr_left fun v _ => ?_).trans (List.map_id _)
        exact shellValue_tagLine hf (canonical_mem hf) v
      rw [tagdata_values hf, tagdata, hlines, grepped_lines hf, hwords format hf, hvalues]
    exact List.filterMap_congr fun format hf => by rw [hdata format hf]
  refine ⟨hkept, fun hnames => ⟨?_, hkept⟩⟩
  rintro ⟨hstored, -⟩ format hf
  have hline : ∀ format ∈ formatLines, ∀ w ∈ words s d format, '\n' ∉ w := by
    intro format _ w hw
    obtain ⟨v, hv, hw⟩ := List.mem_flatMap.mp hw
    exact hnames v (value_line d (List.mem_filter.mp hv).1) w hw
  have hsame := hstored format hf
  rw [fileLines_stored hquiet hline, canonical_lines hf] at hsame
  refine (words_eq_iff format s d).mp (List.map_injective_iff.mpr ?_ hsame)
  exact fun _ _ h => tagLine_inj.mp h

section Sample

theorem emptyDir_config : '\n' ∉ "x86-64".toList := by
  rw [String.toList_ofList]
  simp

theorem emptyDir_glob (s : Str) (hs : s ≠ []) : [s] ≠ [] ∧ [] ∉ [s] :=
  ⟨List.cons_ne_nil s [], fun h => hs (List.mem_singleton.mp h).symm⟩

/-- A directory where no pattern finds anything. -/
def emptyDir : Site where
  config := "x86-64".toList
  config_line := emptyDir_config
  glob := fun s => [s]
  glob_some := emptyDir_glob

theorem emptyDir_quiet : Quiet emptyDir := fun _ _ => .inl rfl

theorem text_format : "[T] [TEXT] (*)".toList ∈ formatLines := .tail _ (.tail _ (.head _))

theorem text_alias : ['T'] ∈ aliases "[T] [TEXT] (*)".toList := by decide +kernel

def textLine (value : Str) (bare : Bool) (h : bare = true → value = []) : DescLine :=
  .tag ⟨"[T] [TEXT] (*)".toList, ['T'], value, bare, text_format, text_alias, h⟩

theorem filled_line : fileLines "[T] a b\n".toList =
    [textLine "a b".toList false nofun].map DescLine.text := by
  repeat rw [String.toList_ofList]
  rfl

theorem filled_plain : CString.nul ∉ "[T] a b\n".toList := by
  rw [String.toList_ofList]
  simp [CString.nul]

def filled : Desc := ⟨"[T] a b\n".toList, [textLine "a b".toList false nofun], filled_line, filled_plain⟩

theorem empty_line : fileLines "[T]\n".toList = [textLine [] true fun _ => rfl].map DescLine.text := by
  rw [String.toList_ofList]
  rfl

theorem empty_plain : CString.nul ∉ "[T]\n".toList := by
  rw [String.toList_ofList]
  simp [CString.nul]

/-- A paragraph line without a text. -/
def separated : Desc := ⟨"[T]\n".toList, [textLine [] true fun _ => rfl], empty_line, empty_plain⟩

end Sample

theorem stored_filled : Stored emptyDir filled := by
  refine (stored_iff emptyDir filled emptyDir_quiet).1 fun format hf value hv => ⟨?_, rfl⟩
  obtain ⟨l, hl, hvalue⟩ := List.mem_filterMap.mp hv
  rw [List.mem_singleton.mp hl, textLine, DescLine.value] at hvalue
  split_ifs at hvalue
  rw [← Option.some.inj hvalue]
  decide +kernel

/-- The empty line between paragraphs is lost. -/
theorem separated_lost : Quiet emptyDir ∧ ¬Stored emptyDir separated := by
  refine ⟨emptyDir_quiet, fun h => ?_⟩
  exact absurd (h.1 "[T] [TEXT] (*)".toList text_format) (by decide +kernel)

end T2SDE.StoredDesc
