import Mathlib.Data.List.GetD
import T2SDE.Bz2Filename
import T2SDE.DescParsers
import T2SDE.SourceFile

namespace T2SDE.DownloadList

open Text Endings Download DescParsers

/-- A file package/*/*/*.desc: its path and its text. -/
structure Desc where
  path : Str
  text : Str

def isBlank (c : Char) : Bool := c == ' ' || c == '\t'

/-- The words of a line; behind `column_clean` there is one blank between them. -/
def words (line : Str) : List Str := tokens isBlank line

section List

/-- `grep -H '^\[D\] ' package/*/*/*.desc | column_clean` -/
def listDtags (descs : List Desc) : List (List Str) :=
  descs.flatMap fun d => ((fileLines d.text).filter fun line => "[D] ".toList.isPrefixOf line).map fun line =>
    words (d.path ++ ':' :: line)

/-- `[X0-9a-z]*` -/
def plainCksum (cksum : Str) : Bool := cksum.all fun c => c == 'X' || c.isDigit || c.isLower

def listedPath (dir file : Str) : Str := "download/".toList ++ dir ++ '/' :: file.take 1 ++ '/' :: file

/-- `s,[^ ]* \([X0-9a-z]*\) \(.\)\([^ ]*\) -.*,\1 download/dir/\2/\2\3,` on the words of a line, with
`[^-]` instead of the `-` where `dash` is false. The first words that fit are replaced, with all
behind them. -/
def substitute (dash : Bool) (dir : Str) : List Str → Option (List Str)
  | word :: cksum :: file :: url :: rest =>
    if plainCksum cksum && (url.head? == some '-') == dash then some [cksum, listedPath dir file]
    else (substitute dash dir (cksum :: file :: url :: rest)).map (word :: ·)
  | _ => none

/-- What the two commands print for a line; the second one sees what the first has made of it. -/
def listCksums (line : List Str) : List (List Str) :=
  let first := substitute true "local".toList line
  first.toList ++ (substitute false "mirror".toList (first.getD line)).toList

/-- `list`: `cut -f2- -d' '` of these lines. -/
def list (descs : List Desc) : List Str :=
  ((listDtags descs).flatMap listCksums).map fun line => [' '].intercalate (line.drop 1)

end List

section Package

/-- The tag definition of the downloads in PKG-DESC-FORMAT. -/
def downFormat : Str := "[D] [DOWN] [DOWNLOAD]".toList

theorem downFormat_mem : downFormat ∈ formatLines := by decide +kernel

theorem aliases_downFormat : aliases downFormat = ["D".toList, "DOWN".toList, "DOWNLOAD".toList] := by decide

/-- A word of `read`, and the text from the next one on. -/
def readWord (s : Str) : Str × Str :=
  (s.takeWhile fun c => !isBlank c, (s.dropWhile fun c => !isBlank c).dropWhile isBlank)

/-- `read cksum file url`, of a line without backslashes. -/
def readLine (value : Str) : Line :=
  let (cksum, s) := readWord (value.dropWhile isBlank)
  let (file, s) := readWord s
  { cksum, file, url := s.rdropWhile isBlank }

/-- `echo "$desc_D"` has one line at least. -/
def echoed (lines : List Str) : List Str := if lines = [] then [[]] else lines

/-- The lines with which `package` calls `download_file`. -/
def package (d : Desc) : List Line := (echoed (descValues d.text downFormat)).map readLine

/-- The paths that `package` downloads; without a file name `source_file` names a directory. -/
def downloads (descs : List Desc) : List Str :=
  descs.flatMap fun d => ((package d).filter fun line => line.file != []).map sourceFile

end Package

/-- The listed names are those of the downloads, both as `bz2filename` maps them. -/
def Covers (descs : List Desc) : Prop :=
  ∀ name, name ∈ (list descs).map bz2filename ↔ name ∈ (downloads descs).map bz2filename

section Condition

/-- The words begin with a checksum, a file name and a URL, as the commands want them. -/
def fitsAt (dash : Bool) : List Str → Bool
  | cksum :: _ :: url :: _ => plainCksum cksum && (url.head? == some '-') == dash
  | _ => false

/-- The commands find their words further behind in the value of a line. -/
def Garbled (ws : List Str) : Prop :=
  fitsAt true ws = false ∧
    ((∃ i, 1 ≤ i ∧ fitsAt true (ws.drop i) = true) ∨
      fitsAt false ws = false ∧ ∃ i, 1 ≤ i ∧ fitsAt false (ws.drop i) = true)

/-- The value has a plain checksum, a file name and a URL. -/
def Plain (ws : List Str) : Prop := fitsAt true ws = true ∨ fitsAt false ws = true

/-- No `[D]` line is garbled, and every file that is named is named by a plain `[D]` line. -/
structure Listed (descs : List Desc) : Prop where
  straight : ∀ d ∈ descs, ∀ value, tagLine "D".toList value ∈ fileLines d.text → ¬ Garbled (words value)
  named : ∀ d ∈ descs, ∀ tag ∈ aliases downFormat, ∀ value,
    tagLine tag value ∈ fileLines d.text → 2 ≤ (words value).length →
    ∃ e ∈ descs, ∃ other, tagLine "D".toList other ∈ fileLines e.text ∧ Plain (words other) ∧
      bz2filename (sourceFile (readLine other)) = bz2filename (sourceFile (readLine value))

end Condition

section Words

variable {s : Str}

theorem words_dropWhile (s : Str) : words (s.dropWhile isBlank) = words s := by
  conv => rhs; rw [← List.takeWhile_append_dropWhile (p := isBlank) (l := s)]
  exact (tokens_append_left (fun c hc => List.mem_takeWhile_imp hc) _).symm

theorem not_blank_of_start {c : Char} (hs : (c :: s).dropWhile isBlank = c :: s) : isBlank c = false := by
  by_contra h
  rw [Bool.not_eq_false] at h
  rw [List.dropWhile_cons_of_pos h] at hs
  have hlen := (List.dropWhile_sublist isBlank (l := s)).length_le
  rw [hs, List.length_cons] at hlen
  omega

/-- A text without blanks in front begins with its first word. -/
theorem words_readWord (hs : s.dropWhile isBlank = s) (hne : s ≠ []) :
    words s = (readWord s).1 :: words (readWord s).2 := by
  have hword : (s.takeWhile fun c => !isBlank c) ≠ [] := by
    obtain ⟨c, t, rfl⟩ := List.exists_cons_of_ne_nil hne
    have hc : isBlank c = false := not_blank_of_start hs
    simp [hc]
  have hfree : ∀ c ∈ s.takeWhile fun c => !isBlank c, isBlank c = false := by
    intro c hc
    simpa using List.mem_takeWhile_imp hc
  have hsplit : s = (s.takeWhile fun c => !isBlank c) ++ s.dropWhile fun c => !isBlank c :=
    (List.takeWhile_append_dropWhile ..).symm
  rw [readWord, words_dropWhile]
  cases hrest : s.dropWhile fun c => !isBlank c with
  | nil =>
    rw [hrest, List.append_nil] at hsplit
    conv => lhs; rw [hsplit]
    exact tokens_word hword hfree
  | cons d rest =>
    have hd : isBlank d = true := by
      have hhead := List.head_dropWhile_not (fun c => !isBlank c) (l := s) (by simp [hrest])
      simpa [hrest] using hhead
    rw [hrest] at hsplit
    conv => lhs; rw [hsplit]
    rw [words, words, tokens_append_sep hd, tokens_word hword hfree, tokens_cons_sep hd,
      List.singleton_append]

theorem readWord_start (s : Str) : (readWord s).2.dropWhile isBlank = (readWord s).2 :=
  List.dropWhile_idempotent ..

/-- The first word of a text, and the words behind it. -/
theorem readWord_words (hs : s.dropWhile isBlank = s) :
    (readWord s).1 = (words s).getD 0 [] ∧ words (readWord s).2 = (words s).drop 1 := by
  by_cases hne : s = []
  · subst hne
    exact ⟨rfl, rfl⟩
  · rw [words_readWord hs hne]
    exact ⟨rfl, rfl⟩

/-- A text that begins with a word still does so when the blanks at its end are gone. -/
theorem head_rdropWhile (hs : s.dropWhile isBlank = s) :
    (s.rdropWhile isBlank).head? = ((words s).getD 0 []).head? := by
  cases s with
  | nil => rfl
  | cons c s =>
    have hc : isBlank c = false := not_blank_of_start hs
    have hne : (c :: s).rdropWhile isBlank ≠ [] := by
      intro hnil
      have hblank := List.rdropWhile_eq_nil_iff.mp hnil c (by simp)
      rw [hc] at hblank
      cases hblank
    obtain ⟨d, t, ht⟩ := List.exists_cons_of_ne_nil hne
    have hbegin : d :: t <+: c :: s := ht ▸ List.rdropWhile_prefix isBlank (c :: s)
    rw [← (readWord_words hs).1, ht, (List.cons_prefix_cons.mp hbegin).1]
    simp [readWord, hc]

theorem getD_drop_one (ws : List Str) (i : Nat) : (ws.drop 1).getD i [] = ws.getD (i + 1) [] := by
  cases ws <;> rfl

theorem readLine_words (value : Str) :
    (readLine value).file = (words value).getD 1 [] ∧
    (readLine value).url.head? = ((words value).getD 2 []).head? := by
  have hstart : (value.dropWhile isBlank).dropWhile isBlank = value.dropWhile isBlank :=
    List.dropWhile_idempotent ..
  obtain ⟨-, hcksum⟩ := readWord_words hstart
  obtain ⟨hfile, hurl⟩ := readWord_words (readWord_start (value.dropWhile isBlank))
  have hhead := head_rdropWhile (readWord_start (readWord (value.dropWhile isBlank)).2)
  rw [words_dropWhile] at hcksum
  rw [hcksum] at hfile hurl
  rw [hurl] at hhead
  exact ⟨hfile.trans (getD_drop_one (words value) 0),
    hhead.trans (congrArg List.head? ((getD_drop_one _ 0).trans (getD_drop_one (words value) 1)))⟩

theorem file_ne_nil_iff (value : Str) : (readLine value).file ≠ [] ↔ 2 ≤ (words value).length := by
  rw [(readLine_words value).1]
  by_cases h : 2 ≤ (words value).length
  · have hmem : (words value).getD 1 [] ∈ words value := by
      rw [List.getD_eq_getElem _ _ (by omega)]
      exact List.getElem_mem _
    exact iff_of_true (mem_tokens hmem).1 h
  · rw [List.getD_eq_default _ _ (by omega)]
    exact iff_of_false (fun hne => hne rfl) h

end Words

section Substitute

variable {dash : Bool} {dir word : Str} {ws out : List Str}

theorem substitute_cons (dash : Bool) (dir word : Str) (ws : List Str) :
    substitute dash dir (word :: ws) =
      if fitsAt dash ws then some [ws.getD 0 [], listedPath dir (ws.getD 1 [])]
      else (substitute dash dir ws).map (word :: ·) := by
  cases ws with
  | nil => rfl
  | cons cksum ws =>
    cases ws with
    | nil => rfl
    | cons file ws =>
      cases ws with
      | nil => rfl
      | cons url rest => rfl

theorem substitute_none (word : Str) (h : ∀ i, fitsAt dash (ws.drop i) = false) :
    substitute dash dir (word :: ws) = none := by
  induction ws generalizing word with
  | nil => rfl
  | cons w ws ih =>
    rw [substitute_cons, if_neg (by simpa using h 0), ih w fun i => h (i + 1), Option.map_none]

theorem substitute_some (dir word : Str) {i : Nat} (h : fitsAt dash (ws.drop i) = true) :
    ∃ out, substitute dash dir (word :: ws) = some out ∧ 2 ≤ out.length := by
  induction i generalizing word ws with
  | zero =>
    rw [List.drop_zero] at h
    rw [substitute_cons, if_pos h]
    exact ⟨_, rfl, Nat.le_refl 2⟩
  | succ i ih =>
    cases ws with
    | nil =>
      rw [List.drop_nil] at h
      cases h
    | cons w ws =>
      obtain ⟨out, hout, hlen⟩ := ih w (by simpa using h)
      rw [substitute_cons, hout]
      split_ifs
      · exact ⟨_, rfl, Nat.le_refl 2⟩
      · exact ⟨word :: out, rfl, Nat.le_succ_of_le hlen⟩

/-- A match behind the checksum leaves the words in front of it. -/
theorem substitute_later (dir word : Str) (hno : fitsAt dash ws = false) {i : Nat} (hi : 1 ≤ i)
    (h : fitsAt dash (ws.drop i) = true) :
    ∃ rest, substitute dash dir (word :: ws) = some (word :: rest) ∧ 2 ≤ rest.length := by
  obtain ⟨j, rfl⟩ : ∃ j, i = j + 1 := ⟨i - 1, by omega⟩
  cases ws with
  | nil => cases h
  | cons w ws =>
    obtain ⟨out, hout, hlen⟩ := substitute_some dir w (by simpa using h)
    rw [substitute_cons, if_neg (by simp [hno]), hout]
    exact ⟨out, rfl, hlen⟩

theorem forall_drop_false (hno : fitsAt dash ws = false)
    (h : ¬ ∃ i, 1 ≤ i ∧ fitsAt dash (ws.drop i) = true) (i : Nat) :
    fitsAt dash (ws.drop i) = false := by
  cases i with
  | zero => exact hno
  | succ i =>
    by_contra hne
    exact h ⟨i + 1, by omega, by simpa using hne⟩

/-- Where a list line says a file of its value is. -/
def valuePath (ws : List Str) : Str :=
  listedPath (if (ws.getD 2 []).head? = some '-' then "local".toList else "mirror".toList) (ws.getD 1 [])

theorem head_of_fitsAt (h : fitsAt dash ws = true) : ((ws.getD 2 []).head? == some '-') = dash := by
  rw [fitsAt.eq_def] at h
  split at h
  next =>
    rw [Bool.and_eq_true] at h
    exact beq_iff_eq.mp h.2
  next => cases h

theorem listCksums_plain (word : Str) (hplain : Plain ws) (hno : ¬ Garbled ws) :
    listCksums (word :: ws) = [[ws.getD 0 [], valuePath ws]] := by
  rcases hplain with hlocal | hmirror
  · have hdash : (ws.getD 2 []).head? = some '-' := beq_iff_eq.mp (head_of_fitsAt hlocal)
    rw [listCksums, substitute_cons, if_pos hlocal, valuePath, if_pos hdash]
    rfl
  · have hdash : (ws.getD 2 []).head? ≠ some '-' := by
      intro h
      have hfalse := head_of_fitsAt hmirror
      rw [h] at hfalse
      cases hfalse
    have hlocal : fitsAt true ws = false := by
      by_contra h
      rw [Bool.not_eq_false] at h
      exact hdash (beq_iff_eq.mp (head_of_fitsAt h))
    have hnone : substitute true "local".toList (word :: ws) = none :=
      substitute_none word (forall_drop_false hlocal fun h => hno ⟨hlocal, Or.inl h⟩)
    rw [listCksums, hnone, Option.getD_none, substitute_cons, if_pos hmirror, valuePath, if_neg hdash]
    rfl

theorem listCksums_other (word : Str) (hplain : ¬ Plain ws) (hno : ¬ Garbled ws) :
    listCksums (word :: ws) = [] := by
  have hlocal : fitsAt true ws = false := Bool.eq_false_iff.mpr fun h => hplain (Or.inl h)
  have hmirror : fitsAt false ws = false := Bool.eq_false_iff.mpr fun h => hplain (Or.inr h)
  have hfirst : substitute true "local".toList (word :: ws) = none :=
    substitute_none word (forall_drop_false hlocal fun h => hno ⟨hlocal, Or.inl h⟩)
  have hsecond : substitute false "mirror".toList (word :: ws) = none :=
    substitute_none word (forall_drop_false hmirror fun h => hno ⟨hlocal, Or.inr ⟨hmirror, h⟩⟩)
  rw [listCksums, hfirst, Option.getD_none, hsecond]
  rfl

/-- Of a garbled line something with two words is printed, after the first word. -/
theorem listCksums_garbled (word : Str) (h : Garbled ws) :
    ∃ rest, word :: rest ∈ listCksums (word :: ws) ∧ 2 ≤ rest.length := by
  obtain ⟨hlocal, h⟩ := h
  by_cases hlater : ∃ i, 1 ≤ i ∧ fitsAt true (ws.drop i) = true
  · obtain ⟨i, hi, hfit⟩ := hlater
    obtain ⟨rest, hrest, hlen⟩ := substitute_later "local".toList word hlocal hi hfit
    refine ⟨rest, ?_, hlen⟩
    rw [listCksums, hrest]
    exact List.mem_append_left _ (by simp)
  · obtain ⟨hmirror, i, hi, hfit⟩ := h.resolve_left hlater
    obtain ⟨rest, hrest, hlen⟩ := substitute_later "mirror".toList word hmirror hi hfit
    have hfirst : substitute true "local".toList (word :: ws) = none :=
      substitute_none word (forall_drop_false hlocal hlater)
    refine ⟨rest, ?_, hlen⟩
    rw [listCksums, hfirst, Option.getD_none, hrest]
    exact List.mem_append_right _ (by simp)

end Substitute

section Lines

variable {descs : List Desc}

theorem sourceFile_readLine (value : Str) : sourceFile (readLine value) = valuePath (words value) := by
  obtain ⟨hfile, hurl⟩ := readLine_words value
  unfold sourceFile valuePath listedPath
  rw [hfile, hurl]

/-- The names that are printed for a `[D]` line. -/
theorem mem_list {name : Str} (hpath : ∀ d ∈ descs, ∀ c ∈ d.path, isBlank c = false) :
    name ∈ list descs ↔ ∃ d ∈ descs, ∃ value, tagLine "D".toList value ∈ fileLines d.text ∧
      ∃ out ∈ listCksums ((d.path ++ ":[D]".toList) :: words value),
      [' '].intercalate (out.drop 1) = name := by
  have hwords : ∀ d ∈ descs, ∀ value,
      words (d.path ++ ':' :: tagLine "D".toList value) = (d.path ++ ":[D]".toList) :: words value := by
    intro d hd value
    have hsplit : d.path ++ ':' :: tagLine "D".toList value = (d.path ++ ":[D]".toList) ++ ' ' :: value := by
      simp [tagLine]
    have hfree : ∀ c ∈ d.path ++ ":[D]".toList, isBlank c = false := by
      intro c hc
      rcases List.mem_append.mp hc with hc | hc
      · exact hpath d hd c hc
      · have htag : (":[D]".toList.all fun c => !isBlank c) = true := by decide
        simpa using List.all_eq_true.mp htag c hc
    rw [hsplit, words, tokens_append_sep rfl, tokens_word (by simp) hfree]
    rfl
  constructor
  · intro h
    obtain ⟨out, hout, rfl⟩ := List.mem_map.mp h
    obtain ⟨line, hline, hout⟩ := List.mem_flatMap.mp hout
    obtain ⟨d, hd, hline⟩ := List.mem_flatMap.mp hline
    obtain ⟨l, hl, rfl⟩ := List.mem_map.mp hline
    obtain ⟨hmem, htag⟩ := List.mem_filter.mp hl
    obtain ⟨value, rfl⟩ := List.isPrefixOf_iff_prefix.mp htag
    have hvalue : "[D] ".toList ++ value = tagLine "D".toList value := rfl
    rw [hvalue] at hmem hout
    exact ⟨d, hd, value, hmem, out, hwords d hd value ▸ hout, rfl⟩
  · rintro ⟨d, hd, value, hmem, out, hout, rfl⟩
    refine List.mem_map.mpr ⟨out, List.mem_flatMap.mpr ⟨words (d.path ++ ':' :: tagLine "D".toList value),
      ?_, ?_⟩, rfl⟩
    · refine List.mem_flatMap.mpr ⟨d, hd, List.mem_map.mpr ⟨tagLine "D".toList value,
        List.mem_filter.mpr ⟨hmem, ?_⟩, rfl⟩⟩
      exact List.isPrefixOf_iff_prefix.mpr ⟨value, rfl⟩
    · rwa [hwords d hd value]

theorem mem_rdropWhile {α : Type} {p : α → Bool} {l : List α} {x : α} (hx : p x = false) :
    x ∈ l.rdropWhile p ↔ x ∈ l := by
  constructor
  · exact fun h => (List.rdropWhile_prefix p l).subset h
  · intro h
    rw [← List.rdropWhile_append_rtakeWhile (p := p) (l := l)] at h
    rcases List.mem_append.mp h with h | h
    · exact h
    · have hpos := List.mem_rtakeWhile_imp h
      rw [hx] at hpos
      cases hpos

/-- The values of the lines with a tag for downloads. -/
theorem mem_values {text value : Str} (h : IsDesc text) :
    value ∈ (fileLines text).filterMap (valueOf downFormat) ↔
      ∃ tag ∈ aliases downFormat, tagLine tag value ∈ fileLines text := by
  constructor
  · intro hmem
    obtain ⟨line, hl, hvalue⟩ := List.mem_filterMap.mp hmem
    rcases h.cases hl with ⟨format, hf, tag, ht, other, rfl⟩ | hother
    · rw [(values_tagLine hf ht downFormat_mem other).2.1] at hvalue
      split at hvalue
      next heq =>
        subst heq
        cases Option.some.inj hvalue
        exact ⟨tag, ht, hl⟩
      next => cases hvalue
    · rw [(values_other hother downFormat).1] at hvalue
      cases hvalue
  · rintro ⟨tag, ht, hl⟩
    refine List.mem_filterMap.mpr ⟨tagLine tag value, hl, ?_⟩
    rw [(values_tagLine downFormat_mem ht downFormat_mem value).2.1, if_pos rfl]

/-- The paths that are downloaded. -/
theorem mem_downloads {path : Str} (h : ∀ d ∈ descs, IsDesc d.text) :
    path ∈ downloads descs ↔ ∃ d ∈ descs, ∃ tag ∈ aliases downFormat, ∃ value,
    tagLine tag value ∈ fileLines d.text ∧
      2 ≤ (words value).length ∧ sourceFile (readLine value) = path := by
  have hechoed : ∀ d ∈ descs, ∀ value, 2 ≤ (words value).length →
      (value ∈ echoed (descValues d.text downFormat) ↔ ∃ tag ∈ aliases downFormat,
        tagLine tag value ∈ fileLines d.text) := by
    intro d hd value hlen
    have hne : value ≠ [] := by
      rintro rfl
      cases hlen
    have hkept : (value == []) = false := by simpa using hne
    rw [← mem_values (h d hd), descValues_eq downFormat_mem, echoed]
    split_ifs with hnil
    · rw [← mem_rdropWhile (p := fun v => v == []) hkept
        (l := (fileLines d.text).filterMap (valueOf downFormat)), hnil]
      simp [hne]
    · exact mem_rdropWhile hkept
  constructor
  · intro hpath
    obtain ⟨d, hd, hpath⟩ := List.mem_flatMap.mp hpath
    obtain ⟨line, hline, rfl⟩ := List.mem_map.mp hpath
    obtain ⟨hline, hfile⟩ := List.mem_filter.mp hline
    obtain ⟨value, hvalue, rfl⟩ := List.mem_map.mp hline
    have hlen : 2 ≤ (words value).length := (file_ne_nil_iff value).mp (by simpa using hfile)
    obtain ⟨tag, ht, hl⟩ := (hechoed d hd value hlen).mp hvalue
    exact ⟨d, hd, tag, ht, value, hl, hlen, rfl⟩
  · rintro ⟨d, hd, tag, ht, value, hl, hlen, rfl⟩
    have hvalue := (hechoed d hd value hlen).mpr ⟨tag, ht, hl⟩
    have hfile : ((readLine value).file != []) = true := by simpa using (file_ne_nil_iff value).mpr hlen
    exact List.mem_flatMap.mpr ⟨d, hd, List.mem_map.mpr
      ⟨readLine value, List.mem_filter.mpr ⟨List.mem_map.mpr ⟨value, hvalue, rfl⟩, hfile⟩, rfl⟩⟩

end Lines

section Blanks

theorem blank_mem_replaceEnd {suffix new : Str} (hsuffix : ' ' ∉ suffix) (hnew : ' ' ∉ new) (f : Str) :
    ' ' ∈ replaceEnd suffix new f ↔ ' ' ∈ f := by
  cases hend : endsWith f suffix with
  | false => rw [replaceEnd_of_not hend]
  | true =>
    obtain ⟨stem, rfl⟩ := endsWith_iff.mp hend
    rw [replaceEnd_append, List.mem_append, List.mem_append, or_iff_left hnew, or_iff_left hsuffix]

theorem blank_mem_bz2filename (f : Str) : ' ' ∈ bz2filename f ↔ ' ' ∈ f := by
  have hends : ∀ e ∈ convEnds, ' ' ∉ e.1 ∧ ' ' ∉ e.2 := by decide
  have hconv : ∀ g : Str, ' ' ∈ convName g ↔ ' ' ∈ g := by
    intro g
    rw [convName]
    split
    next e he =>
      obtain ⟨hold, hnew⟩ := hends e (List.mem_of_find?_eq_some he)
      exact blank_mem_replaceEnd hold hnew g
    next => rfl
  rw [bz2filename, hconv, stripGpg, blank_mem_replaceEnd (by decide) (by decide),
    blank_mem_replaceEnd (by decide) (by decide)]

theorem blank_notMem_listedPath {dir file : Str} (hdir : ' ' ∉ dir) (hfile : ' ' ∉ file) :
    ' ' ∉ listedPath dir file := by
  have hfirst : ' ' ∉ file.take 1 := fun hmem => hfile (List.mem_of_mem_take hmem)
  unfold listedPath
  simp [hdir, hfile, hfirst]

theorem blank_notMem_valuePath {value : Str} (hlen : 2 ≤ (words value).length) :
    ' ' ∉ valuePath (words value) := by
  unfold valuePath
  refine blank_notMem_listedPath ?_ ?_
  · split_ifs
    · decide
    · decide
  · rw [List.getD_eq_getElem _ _ (by omega)]
    intro hmem
    have hblank : isBlank ' ' = false := (mem_tokens (List.getElem_mem hlen)).2 ' ' hmem
    cases hblank

theorem blank_mem_intercalate {ws : List Str} (h : 2 ≤ ws.length) : ' ' ∈ [' '].intercalate ws := by
  cases ws with
  | nil => cases h
  | cons w ws =>
    cases ws with
    | nil => simp at h
    | cons v ws =>
      rw [intercalate_cons]
      simp

end Blanks

section Covering

variable {descs : List Desc}

theorem Plain.length {ws : List Str} (h : Plain ws) : 2 ≤ ws.length := by
  have hthree : ∀ dash, fitsAt dash ws = true → 2 ≤ ws.length := by
    intro dash hfit
    rw [fitsAt.eq_def] at hfit
    split at hfit
    next => simp
    next => cases hfit
  rcases h with h | h
  · exact hthree true h
  · exact hthree false h

/-- A plain line is listed under the path that is downloaded. -/
theorem Listed.list_iff (h : Listed descs) (hpath : ∀ d ∈ descs, ∀ c ∈ d.path, isBlank c = false)
    (name : Str) :
    name ∈ list descs ↔ ∃ d ∈ descs, ∃ value, tagLine "D".toList value ∈ fileLines d.text ∧
    Plain (words value) ∧
      sourceFile (readLine value) = name := by
  rw [mem_list hpath]
  constructor
  · rintro ⟨d, hd, value, hl, out, hout, rfl⟩
    have hno := h.straight d hd value hl
    by_cases hplain : Plain (words value)
    · rw [listCksums_plain _ hplain hno, List.mem_singleton] at hout
      subst hout
      refine ⟨d, hd, value, hl, hplain, ?_⟩
      rw [sourceFile_readLine]
      simp [List.intercalate]
    · rw [listCksums_other _ hplain hno] at hout
      cases hout
  · rintro ⟨d, hd, value, hl, hplain, rfl⟩
    refine ⟨d, hd, value, hl, [(words value).getD 0 [], valuePath (words value)], ?_, ?_⟩
    · rw [listCksums_plain _ hplain (h.straight d hd value hl)]
      exact List.mem_singleton_self _
    · rw [sourceFile_readLine]
      simp [List.intercalate]

theorem Listed.covers (h : Listed descs) (hdesc : ∀ d ∈ descs, IsDesc d.text)
    (hpath : ∀ d ∈ descs, ∀ c ∈ d.path, isBlank c = false) : Covers descs := by
  intro name
  constructor
  · intro hname
    obtain ⟨path, hlist, rfl⟩ := List.mem_map.mp hname
    obtain ⟨d, hd, value, hl, hplain, rfl⟩ := (h.list_iff hpath path).mp hlist
    have downFormat_memload := (mem_downloads hdesc).mpr ⟨d, hd, "D".toList,
      by simp [aliases_downFormat], value, hl, hplain.length, rfl⟩
    exact List.mem_map_of_mem downFormat_memload
  · intro hname
    obtain ⟨path, downFormat_memload, rfl⟩ := List.mem_map.mp hname
    obtain ⟨d, hd, tag, ht, value, hl, hlen, rfl⟩ := (mem_downloads hdesc).mp downFormat_memload
    obtain ⟨e, he, other, hol, hplain, hsame⟩ := h.named d hd tag ht value hl hlen
    rw [← hsame]
    exact List.mem_map_of_mem ((h.list_iff hpath _).mpr ⟨e, he, other, hol, hplain, rfl⟩)

theorem Covers.straight (h : Covers descs) (hdesc : ∀ d ∈ descs, IsDesc d.text)
    (hpath : ∀ d ∈ descs, ∀ c ∈ d.path, isBlank c = false) {d : Desc} (hd : d ∈ descs) {value : Str}
    (hl : tagLine "D".toList value ∈ fileLines d.text) : ¬ Garbled (words value) := by
  intro hgarbled
  obtain ⟨rest, hrest, hlen⟩ := listCksums_garbled (d.path ++ ":[D]".toList) hgarbled
  have hlist : [' '].intercalate rest ∈ list descs := (mem_list hpath).mpr ⟨d, hd, value, hl, _, hrest, rfl⟩
  obtain ⟨path, downFormat_memload, hsame⟩ := List.mem_map.mp ((h _).mp (List.mem_map_of_mem hlist))
  obtain ⟨_, _, _, _, other, _, holen, rfl⟩ := (mem_downloads hdesc).mp downFormat_memload
  have hblank := (blank_mem_bz2filename _).mpr (blank_mem_intercalate hlen)
  rw [← hsame, blank_mem_bz2filename, sourceFile_readLine] at hblank
  exact blank_notMem_valuePath holen hblank

theorem Covers.listed (h : Covers descs) (hdesc : ∀ d ∈ descs, IsDesc d.text)
    (hpath : ∀ d ∈ descs, ∀ c ∈ d.path, isBlank c = false) : Listed descs where
  straight := fun _ hd _ hl => h.straight hdesc hpath hd hl
  named := by
    intro d hd tag ht value hl hlen
    have downFormat_memload := (mem_downloads hdesc).mpr ⟨d, hd, tag, ht, value, hl, hlen, rfl⟩
    obtain ⟨name, hlist, hsame⟩ := List.mem_map.mp ((h _).mpr (List.mem_map_of_mem downFormat_memload))
    obtain ⟨e, he, other, hol, out, hout, rfl⟩ := (mem_list hpath).mp hlist
    have hno := h.straight hdesc hpath he hol
    by_cases hplain : Plain (words other)
    · refine ⟨e, he, other, hol, hplain, ?_⟩
      rw [listCksums_plain _ hplain hno, List.mem_singleton] at hout
      subst hout
      rw [← hsame, sourceFile_readLine]
      simp [List.intercalate]
    · rw [listCksums_other _ hplain hno] at hout
      cases hout

theorem covers_iff (hdesc : ∀ d ∈ descs, IsDesc d.text)
    (hpath : ∀ d ∈ descs, ∀ c ∈ d.path, isBlank c = false) :
    Covers descs ↔ Listed descs :=
  ⟨fun h => h.listed hdesc hpath, fun h => h.covers hdesc hpath⟩

end Covering

section Samples

def macFdisk : Desc where
  path := "package/powerpc/mac-fdisk/mac-fdisk.desc".toList
  text := "[D] \x7bsha224\x7d6715ad mac-fdisk_0.1.orig.tar.gz http://ftp.debian.org/\n".toList

theorem macFdisk_isDesc : IsDesc macFdisk.text := by
  have hlines : fileLines macFdisk.text =
      [tagLine "D".toList "\x7bsha224\x7d6715ad mac-fdisk_0.1.orig.tar.gz http://ftp.debian.org/".toList] := by decide +kernel
  refine ⟨by decide +kernel, ?_⟩
  rw [hlines]
  intro line hline
  rw [List.mem_singleton.mp hline]
  exact Or.inl ⟨downFormat, downFormat_mem, _, "D".toList, by simp [aliases_downFormat], rfl⟩

theorem macFdisk_path : ∀ c ∈ macFdisk.path, isBlank c = false := by
  have hpath : (macFdisk.path.all fun c => !isBlank c) = true := by decide +kernel
  simpa using hpath

theorem covers_sample : Covers [macFdisk] ↔ Listed [macFdisk] :=
  covers_iff (by simpa using macFdisk_isDesc) (by simpa using macFdisk_path)

/-- The list has no name for a file whose checksum has its algorithm in front. -/
theorem covers_fails : ¬ ∀ descs : List Desc, (∀ d ∈ descs, IsDesc d.text) →
    (∀ d ∈ descs, ∀ c ∈ d.path, isBlank c = false) → Covers descs := by
  intro h
  have hlist : list [macFdisk] = [] := by decide +kernel
  have hwanted : "download/mirror/m/mac-fdisk_0.1.orig.tar.zst".toList ∈
    (downloads [macFdisk]).map bz2filename := by
    decide +kernel
  have hlisted := (h [macFdisk] (by simpa using macFdisk_isDesc) (by simpa using macFdisk_path) _).mpr hwanted
  rw [hlist] at hlisted
  cases hlisted

end Samples

end T2SDE.DownloadList
