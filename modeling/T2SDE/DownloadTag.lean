import T2SDE.TagParser

namespace T2SDE.DescParsers

open Text

structure DownloadInfo where
  chksum : Str
  file : Str
  url : Str
  downUrl : Str
  protocol : Str
  deriving DecidableEq

/-- What `>>` skips. -/
def isSpace (c : Char) : Bool := c == ' ' || (9 ≤ c.toNat && c.toNat ≤ 13)

/-- `url.substr(0, url.rfind('/'))` -/
def dirOf (url : Str) : Str :=
  if '/' ∈ url then ((url.reverse.dropWhile (· != '/')).drop 1).reverse else url

/-- `DownloadTag::ParseLine` -/
def downloadLine (line : Str) : DownloadInfo :=
  let words := tokens isSpace line
  let chksum := words.getD 0 []
  let file := words.getD 1 []
  let word := words.getD 2 []
  let overwritten := word.head? == some '!'
  let url := if overwritten then dirOf (word.drop 1) else word
  { chksum, file, url
    downUrl := if overwritten then word.drop 1 else word ++ file
    protocol := url.takeWhile (· != ':') }

/-- The loop of `DownloadTag::Parse` from `line_start` on. -/
def downloadLoop (value : Str) : Nat → Nat → List DownloadInfo → List DownloadInfo
  | 0, _, infos => infos
  | fuel + 1, lineStart, infos =>
    let rest := value.drop lineStart
    let line := rest.takeWhile (· != '\n')
    let lineEnd := lineStart + line.length
    if '\n' ∈ rest ∧ lineEnd < value.length - 1 then
      downloadLoop value fuel (lineEnd + 1) (infos ++ [downloadLine line])
    else infos ++ [downloadLine line]

def downloadTag : Tag := .of "D" "DOWN" "DOWNLOAD"

/-- A `Package`: the values of its tags and the entries of the download tag. -/
structure Package where
  values : Tag → Str
  downloadInfos : List DownloadInfo

def Package.fresh : Package := ⟨fun _ => [], []⟩

def Package.clear (obj : Package) : Package :=
  ⟨fun t => if t ∈ packageTags then [] else obj.values t, []⟩

/-- `ParsePackage` -/
def Package.parsePackage (obj : Package) (file : Option Str) : Package × Bool :=
  let r := package.parse obj.values file
  if r.ok then
    (⟨r.values, downloadLoop (r.values downloadTag)
      ((r.values downloadTag).length + 1) 0 obj.downloadInfos⟩, true)
  else (⟨r.values, obj.downloadInfos⟩, false)

/-- The lines of a file that have the download tag. -/
def downloadLines (text : Str) : List Str := (fileLines text).filter downloadTag.heads

/-- The entries that the lines of a file call for; there are none for a file that can not be opened. -/
def entries : Option Str → List DownloadInfo
  | none => []
  | some text => (downloadLines text).map fun line => downloadLine (lineValue line)

/-- The parser prints an error for the line. -/
def Reported (line : Str) : Prop := package.Wrong line ∧ (emptyTag line = true → line = "[]".toList)

/-- The fields of a line with three words of which the last one is a plain URL. -/
theorem downloadLine_fields {chksum file url : Str}
    (hwords : ∀ w ∈ [chksum, file, url], w ≠ [] ∧ ∀ c ∈ w, isSpace c = false)
    (hurl : url.head? ≠ some '!') :
    downloadLine (' ' :: [' '].intercalate [chksum, file, url]) =
      ⟨chksum, file, url, url ++ file, url.takeWhile (· != ':')⟩ := by
  have htokens : tokens isSpace (' ' :: [' '].intercalate [chksum, file, url]) = [chksum, file, url] := by
    rw [tokens_cons_sep rfl, tokens_intercalate rfl hwords]
  have hplain : (url.head? == some '!') = false := by simpa using hurl
  simp only [downloadLine, htokens]
  simp [hplain]

section Loop

variable {value : Str} {lines : List Str}

theorem downloadLoop_view (hlines : ∀ line ∈ lines, '\n' ∉ line) (hne : lines ≠ []) (before : Str)
    {fuel : Nat}
    (hfuel : lines.length ≤ fuel) (infos : List DownloadInfo) :
    downloadLoop (before ++ lines.flatMap fun line => line ++ ['\n']) fuel before.length infos =
      infos ++ lines.map downloadLine := by
  induction lines generalizing before fuel infos with
  | nil => exact absurd rfl hne
  | cons line lines ih =>
    obtain ⟨fuel, rfl⟩ : ∃ k, fuel = k + 1 := ⟨fuel - 1, by simp at hfuel; omega⟩
    have hline := hlines line List.mem_cons_self
    have hpos : ∀ c ∈ line, (c != '\n') = true := fun c hc => by
      simpa using fun h : c = '\n' => hline (h ▸ hc)
    have hvalue : (line :: lines).flatMap (fun line => line ++ ['\n']) =
        line ++ '\n' :: lines.flatMap fun line => line ++ ['\n'] := by simp
    have htake : (line ++ '\n' :: lines.flatMap fun line => line ++ ['\n']).takeWhile (· != '\n') = line := by
      rw [List.takeWhile_append_of_pos hpos, List.takeWhile_cons_of_neg (by decide), List.append_nil]
    rw [hvalue, downloadLoop, List.drop_left, htake]
    cases lines with
    | nil => simp
    | cons next lines =>
      have hmore : '\n' ∈ line ++ '\n' :: (next :: lines).flatMap (fun line => line ++ ['\n']) ∧
          before.length + line.length <
            (before ++ (line ++ '\n' :: (next :: lines).flatMap fun line => line ++ ['\n'])).length - 1 := by
        refine ⟨by simp, ?_⟩
        simp only [List.length_append, List.length_cons, List.flatMap_cons, List.length_nil]
        omega
      have hrest := ih (fun x hx => hlines x (List.mem_cons_of_mem line hx)) (List.cons_ne_nil next lines)
        (before ++ line ++ ['\n']) (Nat.le_of_succ_le_succ hfuel) (infos ++ [downloadLine line])
      rw [if_pos hmore]
      simpa [Nat.add_assoc] using hrest

/-- One entry for each line of the value, and one of nothing for a value without lines. -/
theorem downloadLoop_eq (hlines : ∀ line ∈ lines, '\n' ∉ line)
    (hvalue : value = lines.flatMap fun line => line ++ ['\n']) (infos : List DownloadInfo) :
    downloadLoop value (value.length + 1) 0 infos =
      infos ++ if lines = [] then [downloadLine []] else lines.map downloadLine := by
  subst hvalue
  by_cases hne : lines = []
  · subst hne
    rfl
  · have hlen : lines.length ≤ (lines.flatMap fun line => line ++ ['\n']).length + 1 := by
      have hsum : ∀ l : List Str, l.length ≤ (l.flatMap fun line => line ++ ['\n']).length := by
        intro l
        induction l with
        | nil => simp
        | cons x l ih =>
          simp only [List.flatMap_cons, List.length_append, List.length_cons, List.length_nil]
          omega
      exact Nat.le_succ_of_le (hsum lines)
    have hview := downloadLoop_view hlines hne [] hlen infos
    rw [if_neg hne]
    simpa using hview

end Loop

section Package

variable {line text : Str}

theorem downloadTag_mem : downloadTag ∈ package.tags := by decide +kernel

theorem goes_download (line : Str) : package.goes downloadTag line = downloadTag.heads line := by
  cases hgoes : package.goes downloadTag line with
  | true =>
    rcases goes_cases hgoes with hheads | ⟨_, hname⟩
    · exact hheads.symm
    · exact absurd hname (by decide)
  | false =>
    by_contra hheads
    rw [goes_of_heads downloadTag_mem (by simpa using Ne.symm hheads)] at hgoes
    cases hgoes

theorem errors_iff : (package.parseLine line).errors ≠ [] ↔ Reported line := by
  constructor
  · intro h
    refine ⟨wrong_of_errors h, fun hempty => ?_⟩
    obtain ⟨behind, rfl, hsplit, _⟩ := split_of_emptyTag hempty
    have hskip : skipped ('[' :: ']' :: behind) = false := rfl
    have hfind : package.tags.find? (·.called []) = some (.of "COPY" "" "") := by decide +kernel
    rw [TagParser.parseLine, hskip] at h
    simp only [Bool.false_eq_true, if_false, hsplit, hfind] at h
    cases behind with
    | nil => rfl
    | cons c behind => simp at h
  · rintro ⟨hwrong, hempty⟩
    by_cases htag : emptyTag line = true
    · rw [hempty htag]
      decide +kernel
    · exact errors_of_wrong hwrong fun h => absurd h htag

theorem parse_ok_iff (values : Tag → Str) (text : Str) :
    (package.parse values (some text)).ok = true ↔ ∀ line ∈ fileLines text, ¬Reported line := by
  rw [parse_ok]
  constructor
  · exact fun h line hline hreported => errors_iff.mpr hreported (h line (List.mem_append_left _ hline))
  · intro h line hline
    by_contra herrors
    have hreported := errors_iff.mp herrors
    rcases List.mem_append.mp hline with hline | hline
    · exact h line hline hreported
    · obtain rfl := List.mem_singleton.mp hline
      rcases leftOver_cases text with hleft | hmem
      · rw [hleft] at hreported
        exact absurd hreported.1.1 (by decide)
      · exact h _ hmem hreported

/-- The lines of the download tag as `Parse` comes by them. -/
def seenLines (text : Str) : List Str := downloadLines text ++ (again text).filter downloadTag.heads

theorem newline_lineValue (h : '\n' ∉ line) : '\n' ∉ lineValue line :=
  fun hmem => h (List.dropWhile_sublist _ |>.subset hmem)

theorem parse_downloadTag (values : Tag → Str) (text : Str) :
    (package.parse values (some text)).values downloadTag = values downloadTag ++
      ((seenLines text).map lineValue).flatMap fun line => line ++ ['\n'] := by
  have hgoes : package.goes downloadTag = downloadTag.heads := funext goes_download
  have hleft : [leftOver text].filter downloadTag.heads = (again text).filter downloadTag.heads := by
    rcases again_cases text with ⟨hagain, hleft⟩ | hagain
    · rw [hagain, hleft]
      rfl
    · rw [hagain]
  rw [parse_values, hgoes, List.filter_append, hleft, List.flatMap_map]
  rfl

/-- What the vector holds after `Clear` and `ParsePackage`. -/
theorem parsePackage_downloads (obj : Package) (text : Str) :
    ((∀ line ∈ fileLines text, ¬Reported line) →
      (obj.clear.parsePackage (some text)).1.downloadInfos =
        if seenLines text = [] then [downloadLine []]
        else (seenLines text).map fun line => downloadLine (lineValue line)) ∧
    (¬(∀ line ∈ fileLines text, ¬Reported line) →
      (obj.clear.parsePackage (some text)).1.downloadInfos = []) := by
  have hok := parse_ok_iff obj.clear.values text
  have hmem : downloadTag ∈ packageTags := downloadTag_mem
  have hcleared : obj.clear.values downloadTag = [] := by simp [Package.clear, hmem]
  have hseen : ∀ line ∈ (seenLines text).map lineValue, '\n' ∉ line := by
    intro line hline
    obtain ⟨whole, hwhole, rfl⟩ := List.mem_map.mp hline
    rcases List.mem_append.mp hwhole with hwhole | hwhole
    · exact newline_lineValue (not_newline_of_line (List.mem_of_mem_filter hwhole))
    · exact newline_lineValue (not_newline_of_line (mem_again (List.mem_of_mem_filter hwhole)))
  have hvalue := parse_downloadTag obj.clear.values text
  rw [hcleared, List.nil_append] at hvalue
  constructor
  · intro h
    rw [Package.parsePackage]
    simp only [hok.mpr h, if_true]
    rw [downloadLoop_eq hseen hvalue]
    simp [Package.clear, Function.comp_def]
  · intro h
    rw [Package.parsePackage]
    simp only [mt hok.mp h]
    rfl

theorem fresh_clear : Package.fresh.clear = Package.fresh := by
  simp [Package.clear, Package.fresh]

/-- One entry for each download line, in order, as long as nothing is reported, there is one, and
the last line, where its end is missing, is none; and none as long as something is reported and
there is no such line. What the object held before does not matter. -/
theorem downloadInfos_iff (obj : Package) (file : Option Str) :
    (obj.clear.parsePackage file).1.downloadInfos = (Package.fresh.parsePackage file).1.downloadInfos ∧
      ((obj.clear.parsePackage file).1.downloadInfos = entries file ↔ ∀ text, file = some text →
        downloadLines text ≠ [] ∧ (∀ line ∈ fileLines text, ¬Reported line) ∧
            (∀ line ∈ again text, downloadTag.heads line = false) ∨
          downloadLines text = [] ∧ ∃ line ∈ fileLines text, Reported line) := by
  cases file with
  | none => exact ⟨rfl, by simp [Package.parsePackage, TagParser.parse, entries, Package.clear]⟩
  | some text =>
    obtain ⟨hsilent, hreported⟩ := parsePackage_downloads obj text
    obtain ⟨hfresh, hnone⟩ := parsePackage_downloads Package.fresh text
    rw [fresh_clear] at hfresh hnone
    simp only [Option.some.injEq, forall_eq']
    by_cases hok : ∀ line ∈ fileLines text, ¬Reported line
    · refine ⟨(hsilent hok).trans (hfresh hok).symm, ?_⟩
      have hno : ¬∃ line ∈ fileLines text, Reported line := by simpa using hok
      rw [hsilent hok]
      simp only [hno, and_false, or_false]
      by_cases hlines : downloadLines text = []
      · -- without a line there is one entry all the same
        have hagain : (again text).filter downloadTag.heads = [] := by
          refine List.filter_eq_nil_iff.mpr fun line hline hheads => ?_
          exact List.filter_eq_nil_iff.mp hlines line (mem_again hline) hheads
        have hseen : seenLines text = [] := by rw [seenLines, hlines, hagain, List.append_nil]
        simp [hseen, entries, hlines]
      · have hseen : seenLines text ≠ [] := fun h => hlines (List.append_eq_nil_iff.mp h).1
        rw [if_neg hseen, entries, seenLines, List.map_append, List.append_right_eq_self, List.map_eq_nil_iff,
          List.filter_eq_nil_iff]
        constructor
        · exact fun h => ⟨hlines, hok, fun line hline => by simpa using h line hline⟩
        · exact fun h line hline => by simp [h.2.2 line hline]
    · refine ⟨(hreported hok).trans (hnone hok).symm, ?_⟩
      have hsome : ∃ line ∈ fileLines text, Reported line := by simpa using hok
      rw [hreported hok, entries]
      constructor
      · intro h
        exact .inr ⟨List.map_eq_nil_iff.mp h.symm, hsome⟩
      · rintro (⟨_, h, _⟩ | ⟨hlines, _⟩)
        · exact absurd h hok
        · rw [hlines, List.map_nil]

/-- A package without a download gets an entry of nothing. -/
theorem downloadInfos_none :
    (Package.fresh.clear.parsePackage (some "[I] a package\n".toList)).1.downloadInfos =
    [⟨[], [], [], [], []⟩] ∧
      entries (some "[I] a package\n".toList) = [] := by
  decide +kernel

end Package

end T2SDE.DescParsers
