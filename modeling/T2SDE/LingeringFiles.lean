import T2SDE.CleanupBuild
import T2SDE.Lib.Bre
import T2SDE.PkgInstalled

namespace T2SDE.LingeringFiles

open Text CleanupBuild

section Program

/-- A name that the shell takes as it is, and that is no option. -/
structure Name where
  text : Str
  ne : text ≠ []
  word : ∀ c ∈ text, c ∉ ([' ', '\t', '\n', '*', '?', '[', '\\'] : Str)
  option : text.head? ≠ some '-'

inductive AdmDir
  | cache
  | dependencies
  | descs
  | flists
  | md5sums
  | packages
  deriving DecidableEq

inductive Suffix
  | log
  | err
  | out

def Suffix.text : Suffix → Str
  | .log => ['.', 'l', 'o', 'g']
  | .err => ['.', 'e', 'r', 'r']
  | .out => ['.', 'o', 'u', 't']

/-- The log of a package that is no hidden file's. -/
structure LogFile where
  stage : Char
  digit : stage.isDigit = true
  package : Name
  dot : package.text.head? ≠ some '.'
  suffix : Suffix

def LogFile.text (f : LogFile) : Str := f.stage :: '-' :: f.package.text ++ f.suffix.text

/-- The packages of a configuration, and what is under `var/adm`. -/
structure Input where
  lines : List PkgLine
  names : ∀ l ∈ lines, ∃ n : Name, n.text = l.name
  plain : ∀ l ∈ lines, '=' ∉ l.text
  pkgfileVer : Bool
  /-- the lines of the file of a package in `var/adm/packages` -/
  packageFile : Str → List Str
  adm : AdmDir → List Name
  logs : List LogFile

/-- `cut -d' ' -f` -/
def cutField (n : Nat) (line : Str) : Str :=
  if ' ' ∈ line then (line.splitOn ' ').getD (n - 1) [] else line

/-- `sed '/^[^X]/d; s,.*=,,'` with `cut -d' ' -f5` -/
def listed (packages : List Str) : List Str :=
  (packages.filter fun line => !line.head?.any (· != 'X')).map fun line =>
    cutField 5 (line.rtakeWhile (· != '='))

def versionTag : String := "Package Name and Version:"

/-- The lines of the version of a package. -/
def version (i : Input) (p : Str) : List Str :=
  (((i.packageFile p).filter fun line => versionTag.toList <+: line).map (cutField 6)).rdropWhile (· == [])

/-- The lines that a package has in the list. -/
def entries (i : Input) (p : Str) : List Str :=
  if i.pkgfileVer then
    match version i p with
    | [] => [p ++ ['-']]
    | v :: rest => (p ++ '-' :: v) :: rest
  else [p]

def pkglst (i : Input) : List Str := (listed (i.lines.map PkgLine.text)).flatMap (entries i)

def pattern (i : Input) (x : Str) : Str := if i.pkgfileVer then x ++ ['-'] else x

/-- Whether `grep -q "$x" $pkglst` succeeds. -/
def found (i : Input) (x : Str) : Bool := (pkglst i).any (Bre.search (pattern i x))

/-- What `ls` shows. -/
def ls (files : List Name) : List Name := files.filter fun f => f.text.head? != some '.'

def dirs : List AdmDir := [.cache, .dependencies, .descs, .flists, .md5sums, .packages]

/-- The files in the directories that should not be present. -/
def invalidFiles (i : Input) : List (AdmDir × Name) :=
  dirs.flatMap fun dir => ((ls (i.adm dir)).filter fun file => !found i file.text).map fun file => (dir, file)

/-- What `sed` leaves of the name of a log: it takes a stage away, and each suffix where it is found first. -/
def logName (file : Str) : Str :=
  let x := match file with
    | _ :: '-' :: rest => rest
    | file => file
  cutFirst Suffix.out.text (cutFirst Suffix.err.text (cutFirst Suffix.log.text x))

/-- The logs that should not be present. -/
def invalidLogs (i : Input) : List LogFile := i.logs.filter fun file => !found i (logName file.text)

end Program

section Purpose

def enabled (i : Input) : List Str := (i.lines.filter fun l => l.status = .on).map PkgLine.name

/-- Just the files of packages that are not enabled are reported. -/
def Exact (i : Input) : Prop :=
  (∀ dir file, (dir, file) ∈ invalidFiles i ↔ file ∈ i.adm dir ∧ file.text ∉ enabled i) ∧
  ∀ file, file ∈ invalidLogs i ↔ file ∈ i.logs ∧ file.package.text ∉ enabled i

/-- The name is a pattern with an anchor. -/
def Anchored (i : Input) (x : Str) : Prop := x.head? = some '^' ∨ i.pkgfileVer = false ∧ x.getLast? = some '$'

/-- The name of the package has a suffix of logs in it. -/
def LogFile.Mangled (f : LogFile) : Prop := ∃ s : Suffix, s.text <:+: f.package.text

structure Fits (i : Input) : Prop where
  shown : ∀ dir, ∀ f ∈ i.adm dir, f.text.head? = some '.' → f.text ∈ enabled i
  apart : ∀ dir, ∀ f ∈ i.adm dir, f.text.head? ≠ some '.' → f.text ∉ enabled i →
    ∀ line ∈ pkglst i, Bre.search (pattern i f.text) line = false
  anchors : ∀ dir, ∀ f ∈ i.adm dir, f.text.head? ≠ some '.' → f.text ∈ enabled i → Anchored i f.text →
    ∃ line ∈ pkglst i, Bre.search (pattern i f.text) line = true
  logsApart : ∀ f ∈ i.logs, f.package.text ∉ enabled i →
    ∀ line ∈ pkglst i, Bre.search (pattern i (logName f.text)) line = false
  logsFound : ∀ f ∈ i.logs, f.package.text ∈ enabled i → f.Mangled ∨ Anchored i f.package.text →
    ∃ line ∈ pkglst i, Bre.search (pattern i (logName f.text)) line = true

end Purpose

section List

variable {i : Input} {x s : Str}

theorem splitOn_fields {fields : List Str} (h : ∀ field ∈ fields, ' ' ∉ field) (hx : ' ' ∉ x) :
    (x ++ fields.flatMap (' ' :: ·)).splitOn ' ' = x :: fields := by
  induction fields generalizing x with
  | nil => rw [List.flatMap_nil, List.append_nil, List.splitOn_eq_singleton hx]
  | cons field fields ih =>
    rw [List.flatMap_cons, List.cons_append, List.splitOn_append_cons_self, List.splitOn_eq_singleton hx,
      ih (fun f hf => h f (List.mem_cons_of_mem field hf)) (h field List.mem_cons_self)]
    rfl

theorem listed_line {l : PkgLine} (h : '=' ∉ l.text) :
    cutField 5 (l.text.rtakeWhile (· != '=')) = l.name := by
  have hall : l.text.rtakeWhile (· != '=') = l.text := by
    rw [List.rtakeWhile_eq_self_iff]
    intro c hc
    rw [bne_iff_ne]
    rintro rfl
    exact h hc
  have hstatus : ' ' ∉ l.status.text := by
    cases l.status <;> decide
  rw [hall, cutField, l.text_fields, splitOn_fields l.no_blank hstatus, if_pos]
  · rfl
  · exact List.mem_append_right _ (by rw [PkgLine.fields]; exact List.mem_cons_self)

/-- The list is read from the lines of the configuration. -/
theorem listed_lines (i : Input) : listed (i.lines.map PkgLine.text) = enabled i := by
  have hstatus : (fun line : Str => !line.head?.any (· != 'X')) ∘ PkgLine.text = fun l =>
    decide (l.status = .on) := by
    funext l
    rw [Function.comp_apply, l.text_fields]
    cases l.status <;> rfl
  rw [listed, enabled, List.filter_map, List.map_map, hstatus]
  refine List.map_congr_left fun l hl => ?_
  rw [Function.comp_apply, listed_line (i.plain l (List.mem_of_mem_filter hl))]

theorem ne_of_enabled (h : x ∈ enabled i) : x ≠ [] := by
  obtain ⟨l, -, rfl⟩ := List.mem_map.mp h
  exact l.name_ok.1

/-- An enabled package is found by its name, if this is no pattern with an anchor. -/
theorem found_enabled (h : x ∈ enabled i) (hplain : ¬Anchored i x) : found i x = true := by
  obtain ⟨hstart, hstop⟩ := not_or.mp hplain
  obtain ⟨c, rest, rfl⟩ := List.exists_cons_of_ne_nil (ne_of_enabled h)
  rw [found, List.any_eq_true, pkglst, listed_lines]
  cases hver : i.pkgfileVer with
  | false =>
    refine ⟨c :: rest, List.mem_flatMap.mpr ⟨_, h, by rw [entries, hver]; exact .head _⟩, ?_⟩
    rw [pattern, hver]
    exact Bre.search_infix hstart (fun hlast => hstop ⟨hver, hlast⟩) (List.infix_refl _)
  | true =>
    have hline : ∃ line ∈ entries i (c :: rest), c :: rest ++ ['-'] <:+: line := by
      rw [entries, hver, if_pos rfl]
      split
      · exact ⟨_, .head _, List.infix_refl _⟩
      · next v vs _ => exact ⟨_, .head _, ⟨[], v, by simp⟩⟩
    obtain ⟨line, hmem, hinfix⟩ := hline
    refine ⟨line, List.mem_flatMap.mpr ⟨_, h, hmem⟩, ?_⟩
    rw [pattern, hver]
    refine Bre.search_infix hstart ?_ hinfix
    rw [if_pos rfl, List.getLast?_concat]
    decide

end List

section Logs

variable {q s u : Str}

/-- What begins with its only dot does not reach over another one. -/
theorem prefix_dot {c : Char} (hq : '.' ∉ q) (h : '.' :: q <+: c :: (s ++ '.' :: u)) :
    '.' :: q <+: c :: s := by
  obtain ⟨rfl, hprefix⟩ := List.cons_prefix_cons.mp h
  refine List.cons_prefix_cons.mpr ⟨rfl, ?_⟩
  rcases List.prefix_or_prefix_of_prefix hprefix (List.prefix_append s _) with hqs | ⟨t, rfl⟩
  · exact hqs
  · cases t with
    | nil => rw [List.append_nil]
    | cons e t =>
      have hdot := (List.cons_prefix_cons.mp ((List.prefix_append_right_inj s).mp hprefix)).1
      exact absurd (List.mem_append_right s (hdot ▸ List.mem_cons_self)) hq

theorem infix_dot (hq : '.' ∉ q) (h : '.' :: q <:+: s ++ '.' :: u) :
    '.' :: q <:+: s ∨ '.' :: q <:+: '.' :: u := by
  induction s with
  | nil => exact .inr h
  | cons c s ih =>
    rcases List.infix_cons_iff.mp h with h | h
    · exact .inl (prefix_dot hq h).isInfix
    · exact (ih h).imp_left fun h => h.trans (List.suffix_cons c s).isInfix

theorem cutFirst_append (hq : '.' ∉ q) (h : ¬ '.' :: q <:+: s) : cutFirst ('.' :: q) (s ++ '.' :: q) = s := by
  induction s with
  | nil => rw [List.nil_append, cutFirst, if_pos (List.prefix_refl _), List.drop_length]
  | cons c s ih =>
    have hno : ¬ '.' :: q <+: c :: (s ++ '.' :: q) := fun hp => h (prefix_dot hq hp).isInfix
    rw [List.cons_append, cutFirst, if_neg hno, ih fun hi => h (hi.trans (List.suffix_cons c s).isInfix)]

theorem suffix_form (s : Suffix) : ∃ q, s.text = '.' :: q ∧ '.' ∉ q := by
  cases s
  · exact ⟨['l', 'o', 'g'], rfl, by decide⟩
  · exact ⟨['e', 'r', 'r'], rfl, by decide⟩
  · exact ⟨['o', 'u', 't'], rfl, by decide⟩

theorem cut_own (t : Suffix) (h : ¬t.text <:+: s) : cutFirst t.text (s ++ t.text) = s := by
  obtain ⟨q, ht, hq⟩ := suffix_form t
  rw [ht] at h ⊢
  exact cutFirst_append hq h

/-- A suffix is not found in front of another one. -/
theorem cut_other {t t' : Suffix} (h : ¬t.text <:+: s) (hne : ¬t.text <:+: t'.text) :
    cutFirst t.text (s ++ t'.text) = s ++ t'.text := by
  obtain ⟨q, ht, hq⟩ := suffix_form t
  obtain ⟨u, ht', -⟩ := suffix_form t'
  rw [ht] at h hne ⊢
  rw [ht'] at hne ⊢
  exact cutFirst_of_not_infix fun hi => (infix_dot hq hi).elim h hne

/-- The name of a log is read back, unless there is a suffix in the name of its package. -/
theorem logName_text {f : LogFile} (h : ¬f.Mangled) : logName f.text = f.package.text := by
  have hno : ∀ s : Suffix, ¬s.text <:+: f.package.text := fun s hs => h ⟨s, hs⟩
  have hname : logName f.text = cutFirst Suffix.out.text (cutFirst Suffix.err.text
      (cutFirst Suffix.log.text (f.package.text ++ f.suffix.text))) := rfl
  rw [hname]
  cases f.suffix with
  | log => rw [cut_own .log (hno .log), cutFirst_of_not_infix (hno .err), cutFirst_of_not_infix (hno .out)]
  | err =>
    rw [cut_other (hno .log) (by decide), cut_own .err (hno .err), cutFirst_of_not_infix (hno .out)]
  | out =>
    rw [cut_other (hno .log) (by decide), cut_other (hno .err) (by decide), cut_own .out (hno .out)]

end Logs

section Reports

variable {i : Input} {x : Str}

theorem found_iff : found i x = true ↔ ∃ line ∈ pkglst i, Bre.search (pattern i x) line = true :=
  List.any_eq_true

theorem mem_invalidFiles {dir : AdmDir} {file : Name} : (dir, file) ∈ invalidFiles i ↔
    file ∈ i.adm dir ∧ file.text.head? ≠ some '.' ∧ ¬found i file.text = true := by
  have hdir : dir ∈ dirs := by
    cases dir <;> simp [dirs]
  simp only [invalidFiles, ls, List.mem_flatMap, List.mem_map, List.mem_filter, Prod.mk.injEq, bne_iff_ne,
    Bool.not_eq_true', Bool.not_eq_true]
  constructor
  · rintro ⟨d, -, f, ⟨⟨hf, hdot⟩, hnot⟩, rfl, rfl⟩
    exact ⟨hf, hdot, hnot⟩
  · rintro ⟨hf, hdot, hnot⟩
    exact ⟨dir, hdir, file, ⟨⟨hf, hdot⟩, hnot⟩, rfl, rfl⟩

theorem mem_invalidLogs {file : LogFile} :
    file ∈ invalidLogs i ↔ file ∈ i.logs ∧ ¬found i (logName file.text) = true := by
  simp [invalidLogs]

/-- The reports are exact just if no pattern of a file that is not enabled is found in the list, and the names
with anchors and the logs with a suffix in the name of the package are found where they are enabled. -/
theorem exact_iff (i : Input) : Exact i ↔ Fits i := by
  have hfound : ∀ x, (∀ line ∈ pkglst i, Bre.search (pattern i x) line = false) ↔ ¬found i x = true := by
    intro x
    simp [found_iff]
  constructor
  · rintro ⟨hfiles, hlogs⟩
    refine ⟨fun dir f hf hdot => ?_, fun dir f hf hdot hno => ?_, fun dir f hf hdot hon _ => ?_,
      fun f hf hno => ?_, fun f hf hon _ => ?_⟩
    · by_contra hno
      exact (mem_invalidFiles.mp ((hfiles dir f).mpr ⟨hf, hno⟩)).2.1 hdot
    · exact (hfound _).mpr (mem_invalidFiles.mp ((hfiles dir f).mpr ⟨hf, hno⟩)).2.2
    · rw [← found_iff]
      by_contra hnot
      exact ((hfiles dir f).mp (mem_invalidFiles.mpr ⟨hf, hdot, hnot⟩)).2 hon
    · exact (hfound _).mpr (mem_invalidLogs.mp ((hlogs f).mpr ⟨hf, hno⟩)).2
    · rw [← found_iff]
      by_contra hnot
      exact ((hlogs f).mp (mem_invalidLogs.mpr ⟨hf, hnot⟩)).2 hon
  · rintro ⟨hshown, hapart, hanchors, hlogsApart, hlogsFound⟩
    refine ⟨fun dir f => ?_, fun f => ?_⟩
    · rw [mem_invalidFiles]
      constructor
      · rintro ⟨hf, hdot, hnot⟩
        refine ⟨hf, fun hon => hnot ?_⟩
        by_cases hanchored : Anchored i f.text
        · exact found_iff.mpr (hanchors dir f hf hdot hon hanchored)
        · exact found_enabled hon hanchored
      · rintro ⟨hf, hno⟩
        have hdot : f.text.head? ≠ some '.' := fun hdot => hno (hshown dir f hf hdot)
        exact ⟨hf, hdot, (hfound _).mp (hapart dir f hf hdot hno)⟩
    · rw [mem_invalidLogs]
      constructor
      · rintro ⟨hf, hnot⟩
        refine ⟨hf, fun hon => hnot ?_⟩
        by_cases hspecial : f.Mangled ∨ Anchored i f.package.text
        · exact found_iff.mpr (hlogsFound f hf hon hspecial)
        · obtain ⟨hclean, hplain⟩ := not_or.mp hspecial
          rw [logName_text hclean]
          exact found_enabled hon hplain
      · rintro ⟨hf, hno⟩
        exact ⟨hf, (hfound _).mp (hlogsApart f hf hno)⟩

end Reports

section Sample

theorem word_of_all {text : Str}
    (h : (text.all fun c => !([' ', '\t', '\n', '*', '?', '[', '\\'] : Str).contains c) = true) :
    ∀ c ∈ text, c ∉ ([' ', '\t', '\n', '*', '?', '[', '\\'] : Str) := by
  simpa using h

def gccName : Name := ⟨"gcc".toList, by decide, word_of_all rfl, by decide⟩

def ccName : Name := ⟨"cc".toList, by decide, word_of_all rfl, by decide⟩

theorem gcc_named : ∀ l ∈ [gccLine], ∃ n : Name, n.text = l.name := by
  intro l hl
  rw [List.mem_singleton.mp hl]
  exact ⟨gccName, rfl⟩

theorem gcc_plain : ∀ l ∈ [gccLine], '=' ∉ l.text := by
  intro l hl
  rw [List.mem_singleton.mp hl]
  decide +kernel

/-- `gcc` is enabled, and there is a file list of `cc`. -/
def sampleInput : Input where
  lines := [gccLine]
  names := gcc_named
  plain := gcc_plain
  pkgfileVer := true
  packageFile _ := ["Package Name and Version: gcc 9.3.0".toList]
  adm dir := if dir = .flists then [ccName] else []
  logs := []

/-- The file list of `cc` is not reported, as `cc-` is a part of `gcc-9.3.0`. -/
theorem ending_hidden : (AdmDir.flists, ccName) ∉ invalidFiles sampleInput ∧
    ccName.text ∉ enabled sampleInput ∧
    ¬Exact sampleInput := by
  have hfound : found sampleInput ccName.text = true := by decide +kernel
  have hno : ccName.text ∉ enabled sampleInput := by decide +kernel
  have hnot : (AdmDir.flists, ccName) ∉ invalidFiles sampleInput :=
    fun h => (mem_invalidFiles.mp h).2.2 hfound
  exact ⟨hnot, hno, fun h => hnot ((h.1 .flists ccName).mpr ⟨.head _, hno⟩)⟩

end Sample

end T2SDE.LingeringFiles
