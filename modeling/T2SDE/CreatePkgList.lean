import Mathlib.Algebra.Ring.Nat
import T2SDE.Lib.Awk

namespace T2SDE.CreatePkgList

open Text Awk

/-- A file as gawk reads it. -/
structure File where
  filename : Str
  lines : List Str

/-- The global variables of the program, and what it has printed. -/
structure Vars where
  defset : Str
  stages : Str
  pri : Str
  pkgtree : Str
  package : Str
  ver : Str
  verDup : Nat
  categories : Str
  flags : Str
  output : List Str

def Vars.init : Vars :=
  { defset := [], stages := [], pri := [], pkgtree := [], package := [], ver := [], verDup := 0,
    categories := [], flags := [], output := [] }

/-- `split($0, a, /[ \t]+/)` -/
def words (line : Str) : List Str := splitRuns (fun c => c == ' ' || c == '\t') line

/-- `/^\[(P|PRI|PRIORITY)\]/` and its like -/
def tagged (names : List Str) (line : Str) : Bool :=
  names.any fun name => ('[' :: (name ++ [']'])).isPrefixOf line

def priorityTags : List Str := ["P".toList, "PRI".toList, "PRIORITY".toList]
def versionTags : List Str := ["V".toList, "VER".toList, "VERSION".toList]
def categoryTags : List Str := ["C".toList, "CATEGORY".toList]
def flagTags : List Str := ["F".toList, "FLAGS".toList]
def archTags : List Str := ["R".toList, "ARCH".toList, "ARCHITECTURE".toList]

def Vars.line (s : Vars) : Str :=
  [' '].intercalate [s.defset, s.stages, s.pri, s.pkgtree, s.package, s.ver,
    '/' :: (s.categories ++ s.flags), ['0']]

/-- `print_package` -/
def Vars.printPackage (s : Vars) : Vars := { s with output := s.output ++ [s.line] }

/-- What the first line of a file sets, before its own tags. -/
def Vars.begin (s : Vars) (filename : Str) : Vars :=
  let a := filename.splitOn '/'
  { s with
    pkgtree := field a 1, package := field a 2, defset := ['X'], pri := "999.999".toList,
    stages := "-----------".toList, ver := "0000".toList, categories := [], verDup := 0, flags := [] }

/-- `for (c=2; a[c]; c++)` -/
def joined (a : List Str) : Str := ((a.drop 1).takeWhile truth).flatMap (' ' :: ·)

/-- The search for an architecture match. -/
def admits (arch : Str) (a : List Str) : Bool :=
  if field a 2 = ['-'] then !(a.drop 2).contains arch else (a.drop 1).contains arch

def priorityRule (s : Vars) (line : Str) : Vars :=
  if tagged priorityTags line then
    let a := words line
    { s with defset := field a 2, stages := field a 3, pri := field a 4 }
  else s

def versionRule (s : Vars) (line : Str) : Vars :=
  if tagged versionTags line then
    let a := words line
    { s with ver := if s.verDup = 0 then field a 2 else s.ver, verDup := 1 }
  else s

def categoryRule (s : Vars) (line : Str) : Vars :=
  if tagged categoryTags line then { s with categories := s.categories ++ joined (words line) } else s

def flagRule (s : Vars) (line : Str) : Vars :=
  if tagged flagTags line then { s with flags := s.flags ++ joined (words line) } else s

def archRule (arch : Str) (s : Vars) (line : Str) : Vars :=
  if tagged archTags line then if admits arch (words line) then s else { s with pkgtree := [] } else s

def tags (arch : Str) (s : Vars) (line : Str) : Vars :=
  archRule arch (flagRule (categoryRule (versionRule (priorityRule s line) line) line) line) line

/-- All rules for one line. -/
def record (arch filename : Str) (s : Vars) (line : Str × Nat) : Vars :=
  let s := if line.2 = 1 ∧ truth s.pkgtree = true then s.printPackage else s
  let s := if line.2 = 1 then s.begin filename else s
  tags arch s line.1

def file (arch : Str) (s : Vars) (f : File) : Vars := (f.lines.zipIdx 1).foldl (record arch f.filename) s

/-- The `END` rule. -/
def finish (s : Vars) : Vars := if truth s.pkgtree then s.printPackage else s

def output (arch : Str) (files : List File) : List Str := (finish (files.foldl (file arch) .init)).output

section PerFile

/-- A line that lets the architecture pass. -/
def admitted (arch line : Str) : Bool := !tagged archTags line || admits arch (words line)

/-- A word of the last line with one of the tags. -/
def lastTag (names : List Str) (i : Nat) (default : Str) (lines : List Str) : Str :=
  ((lines.filter (tagged names)).getLast?.map fun line => field (words line) i).getD default

/-- A word of the first line with one of the tags. -/
def firstTag (names : List Str) (i : Nat) (default : Str) (lines : List Str) : Str :=
  ((lines.find? (tagged names)).map fun line => field (words line) i).getD default

/-- The words of all lines with one of the tags, as far as they are kept. -/
def allTags (keep : List Str → List Str) (names : List Str) (lines : List Str) : Str :=
  (lines.filter (tagged names)).flatMap fun line => (keep ((words line).drop 1)).flatMap (' ' :: ·)

def accepted (arch : Str) (f : File) : Bool := !f.lines.isEmpty && f.lines.all (admitted arch)

/-- The line for a file. -/
def entry (keep : List Str → List Str) (f : File) : Str :=
  [' '].intercalate
    [lastTag priorityTags 2 ['X'] f.lines, lastTag priorityTags 3 "-----------".toList f.lines,
      lastTag priorityTags 4 "999.999".toList f.lines, field (f.filename.splitOn '/') 1,
      field (f.filename.splitOn '/') 2, firstTag versionTags 2 "0000".toList f.lines,
      '/' :: (allTags keep categoryTags f.lines ++ allTags keep flagTags f.lines), ['0']]

/-- One line for each accepted file, with the words other than numeric zeros. -/
def listed (arch : Str) (f : File) : Option Str :=
  if accepted arch f then some (entry (List.filter truth) f) else none

/-- What the program prints for a file. -/
def printed (arch : Str) (f : File) : Option Str :=
  if accepted arch f && truth (field (f.filename.splitOn '/') 1) then some (entry (List.takeWhile truth) f)
  else none

theorem lastTag_cons (names : List Str) (i : Nat) (default line : Str) (lines : List Str) :
    lastTag names i default (line :: lines) =
      lastTag names i (if tagged names line then field (words line) i else default) lines := by
  unfold lastTag
  by_cases h : tagged names line = true
  · rw [List.filter_cons_of_pos h, if_pos h]
    cases lines.filter (tagged names) with
    | nil => rfl
    | cons l ls => rw [List.getLast?_cons_cons, List.getLast?_cons, Option.map_some]; rfl
  · rw [List.filter_cons_of_neg h, if_neg h]

theorem firstTag_cons (names : List Str) (i : Nat) (default line : Str) (lines : List Str) :
    firstTag names i default (line :: lines) =
      if tagged names line then field (words line) i else firstTag names i default lines := by
  unfold firstTag
  by_cases h : tagged names line = true
  · rw [List.find?_cons_of_pos h, if_pos h]
    rfl
  · rw [List.find?_cons_of_neg h, if_neg h]

theorem allTags_cons (keep : List Str → List Str) (names : List Str) (line : Str) (lines : List Str) :
    allTags keep names (line :: lines) =
      (if tagged names line then (keep ((words line).drop 1)).flatMap (' ' :: ·) else []) ++
        allTags keep names lines := by
  unfold allTags
  by_cases h : tagged names line = true
  · rw [List.filter_cons_of_pos h, if_pos h, List.flatMap_cons]
  · rw [List.filter_cons_of_neg h, if_neg h, List.nil_append]

theorem tags_eq (arch : Str) (s : Vars) (line : Str) :
    tags arch s line =
      { defset := if tagged priorityTags line then field (words line) 2 else s.defset
        stages := if tagged priorityTags line then field (words line) 3 else s.stages
        pri := if tagged priorityTags line then field (words line) 4 else s.pri
        pkgtree := if admitted arch line then s.pkgtree else []
        package := s.package
        ver := if s.verDup = 0 then if tagged versionTags line then field (words line) 2 else s.ver else s.ver
        verDup := if tagged versionTags line then 1 else s.verDup
        categories := s.categories ++ if tagged categoryTags line then joined (words line) else []
        flags := s.flags ++ if tagged flagTags line then joined (words line) else []
        output := s.output } := by
  have hp : priorityRule s line = { s with
      defset := if tagged priorityTags line then field (words line) 2 else s.defset
      stages := if tagged priorityTags line then field (words line) 3 else s.stages
      pri := if tagged priorityTags line then field (words line) 4 else s.pri } := by
    unfold priorityRule
    split <;> rfl
  have hv (s : Vars) : versionRule s line = { s with
      ver := if s.verDup = 0 then if tagged versionTags line then field (words line) 2 else s.ver else s.ver
      verDup := if tagged versionTags line then 1 else s.verDup } := by
    unfold versionRule
    split
    · rfl
    · simp
  have hc (s : Vars) : categoryRule s line = { s with
      categories := s.categories ++ if tagged categoryTags line then joined (words line) else [] } := by
    unfold categoryRule
    split
    · rfl
    · simp
  have hf (s : Vars) : flagRule s line = { s with
      flags := s.flags ++ if tagged flagTags line then joined (words line) else [] } := by
    unfold flagRule
    split
    · rfl
    · simp
  have ha (s : Vars) : archRule arch s line =
      { s with pkgtree := if admitted arch line then s.pkgtree else [] } := by
    unfold archRule admitted
    cases tagged archTags line <;> cases admits arch (words line) <;> rfl
  rw [tags, hp, hv, hc, hf, ha]

theorem foldl_tags (arch : Str) (lines : List Str) (s : Vars) :
    lines.foldl (tags arch) s =
      { defset := lastTag priorityTags 2 s.defset lines
        stages := lastTag priorityTags 3 s.stages lines
        pri := lastTag priorityTags 4 s.pri lines
        pkgtree := if lines.all (admitted arch) then s.pkgtree else []
        package := s.package
        ver := if s.verDup = 0 then firstTag versionTags 2 s.ver lines else s.ver
        verDup := if lines.any (tagged versionTags) then 1 else s.verDup
        categories := s.categories ++ allTags (List.takeWhile truth) categoryTags lines
        flags := s.flags ++ allTags (List.takeWhile truth) flagTags lines
        output := s.output } := by
  induction lines generalizing s with
  | nil => simp [lastTag, firstTag, allTags]
  | cons line lines ih =>
    rw [List.foldl_cons, ih, tags_eq, Vars.mk.injEq]
    refine ⟨?_, ?_, ?_, ?_, rfl, ?_, ?_, ?_, ?_, rfl⟩
    · exact (lastTag_cons ..).symm
    · exact (lastTag_cons ..).symm
    · exact (lastTag_cons ..).symm
    · rw [List.all_cons]
      cases admitted arch line <;> simp
    · rw [firstTag_cons]
      by_cases hd : s.verDup = 0 <;> cases tagged versionTags line <;> simp [hd]
    · rw [List.any_cons]
      cases tagged versionTags line <;> simp
    · rw [allTags_cons, List.append_assoc]
      rfl
    · rw [allTags_cons, List.append_assoc]
      rfl

theorem foldl_record (arch filename : Str) (lines : List Str) {n : Nat} (hn : 1 < n) (s : Vars) :
    (lines.zipIdx n).foldl (record arch filename) s = lines.foldl (tags arch) s := by
  induction lines generalizing n s with
  | nil => rfl
  | cons line lines ih =>
    have hne : n ≠ 1 := by omega
    have hrecord : record arch filename s (line, n) = tags arch s line := by simp [record, hne]
    rw [List.zipIdx_cons, List.foldl_cons, List.foldl_cons, hrecord, ih (by omega)]

/-- The first line of a file prints the package before it and starts anew. -/
theorem file_eq (arch : Str) (s : Vars) {f : File} (hne : f.lines ≠ []) :
    file arch s f = f.lines.foldl (tags arch) ((finish s).begin f.filename) := by
  obtain ⟨line, lines, hlines⟩ := List.exists_cons_of_ne_nil hne
  have hrecord : record arch f.filename s (line, 1) = tags arch ((finish s).begin f.filename) line := by
    simp [record, finish]
  rw [file, hlines, List.zipIdx_cons, List.foldl_cons, hrecord, foldl_record arch _ lines (by omega),
    List.foldl_cons]

/-- What is printed after the lines of a file, with the package that is still open. -/
theorem finish_file (arch : Str) (s : Vars) (f : File) :
    (finish (file arch s f)).output = (finish s).output ++ (printed arch f).toList := by
  by_cases hne : f.lines = []
  · have hfile : file arch s f = s := by rw [file, hne]; rfl
    have hprinted : printed arch f = none := by simp [printed, accepted, hne]
    rw [hfile, hprinted, Option.toList_none, List.append_nil]
  · have hempty : f.lines.isEmpty = false := by simpa using hne
    rw [file_eq arch s hne, foldl_tags]
    cases hall : f.lines.all (admitted arch) with
    | false =>
      have hprinted : printed arch f = none := by simp [printed, accepted, hall]
      rw [hprinted, Option.toList_none, List.append_nil]
      rfl
    | true =>
      cases htree : truth (field (f.filename.splitOn '/') 1) with
      | false =>
        have hprinted : printed arch f = none := by simp [printed, htree]
        rw [hprinted, Option.toList_none, List.append_nil, finish, if_neg (by simp [Vars.begin, htree])]
        rfl
      | true =>
        have hprinted : printed arch f = some (entry (List.takeWhile truth) f) := by
          simp [printed, accepted, hall, htree, hempty]
        rw [hprinted, finish, if_pos (by simp [Vars.begin, htree])]
        rfl

/-- The output is a map over the files. -/
theorem output_eq (arch : Str) (files : List File) : output arch files = files.filterMap (printed arch) := by
  have hfold (s : Vars) : (finish (files.foldl (file arch) s)).output =
      (finish s).output ++ files.filterMap (printed arch) := by
    induction files generalizing s with
    | nil => simp
    | cons f files ih =>
      rw [List.foldl_cons, ih, finish_file, List.append_assoc]
      cases hf : printed arch f <;> simp [hf]
  exact hfold .init

end PerFile

section Agreement

/-- Where gawk keeps all words of the file: the repository is no numeric zero, and behind a numeric
zero in a category or flag line there are only further ones. -/
def Kept (f : File) : Prop :=
  truth (field (f.filename.splitOn '/') 1) = true ∧
    ∀ line ∈ f.lines, (tagged categoryTags line = true ∨ tagged flagTags line = true) →
      ((words line).drop 1).Pairwise fun x y => truth x = false → truth y = false

theorem takeWhile_eq_filter_iff {α : Type} (p : α → Bool) (xs : List α) :
    xs.takeWhile p = xs.filter p ↔ xs.Pairwise fun x y => p x = false → p y = false := by
  induction xs with
  | nil => simp
  | cons x xs ih =>
    cases hx : p x with
    | true =>
      rw [List.takeWhile_cons_of_pos hx, List.filter_cons_of_pos hx, List.pairwise_cons]
      simp [hx, ih]
    | false =>
      rw [List.takeWhile_cons_of_neg (by simp [hx]), List.filter_cons_of_neg (by simp [hx]),
        List.pairwise_cons]
      constructor
      · intro h
        have hnone : ∀ y ∈ xs, p y = false := by simpa using List.filter_eq_nil_iff.mp h.symm
        exact ⟨fun y hy _ => hnone y hy,
          List.pairwise_of_forall_mem_list fun a _ b hb _ => hnone b hb⟩
      · intro h
        exact (List.filter_eq_nil_iff.mpr fun y hy => by simp [h.1 y hy hx]).symm

theorem takeWhile_sublist_filter {α : Type} (p : α → Bool) (xs : List α) :
    (xs.takeWhile p).Sublist (xs.filter p) := by
  induction xs with
  | nil => simp
  | cons x xs ih =>
    cases hx : p x with
    | true => simpa [hx] using ih
    | false => simp [hx]

/-- Fewer words make a shorter text. -/
theorem length_joined {xs ys : List Str} (h : xs.Sublist ys) :
    (xs.flatMap (' ' :: ·)).length ≤ (ys.flatMap (' ' :: ·)).length ∧
      ((xs.flatMap (' ' :: ·)).length = (ys.flatMap (' ' :: ·)).length → xs = ys) := by
  induction h with
  | slnil => simp
  | cons y _ ih =>
    rw [List.flatMap_cons, List.length_append, List.length_cons]
    refine ⟨by omega, fun h => ?_⟩
    omega
  | cons_cons y _ ih =>
    rw [List.flatMap_cons, List.flatMap_cons, List.length_append, List.length_append]
    refine ⟨by omega, fun h => ?_⟩
    rw [ih.2 (by omega)]

theorem length_allTags (names : List Str) (lines : List Str) :
    (allTags (List.takeWhile truth) names lines).length ≤ (allTags (List.filter truth) names lines).length ∧
      ((allTags (List.takeWhile truth) names lines).length =
      (allTags (List.filter truth) names lines).length →
        ∀ line ∈ lines, tagged names line = true →
          ((words line).drop 1).Pairwise fun x y => truth x = false → truth y = false) := by
  induction lines with
  | nil => simp [allTags]
  | cons line lines ih =>
    have hline := length_joined (takeWhile_sublist_filter truth ((words line).drop 1))
    rw [allTags_cons, allTags_cons, List.length_append, List.length_append]
    cases htag : tagged names line with
    | false =>
      refine ⟨by simpa using ih.1, fun h => ?_⟩
      simpa [htag] using ih.2 (by simpa using h)
    | true =>
      rw [if_pos rfl, if_pos rfl]
      refine ⟨by omega, fun h => ?_⟩
      rw [List.forall_mem_cons]
      exact ⟨fun _ => (takeWhile_eq_filter_iff truth _).mp (hline.2 (by omega)), ih.2 (by omega)⟩

theorem allTags_kept {f : File} (hf : Kept f) {names : List Str}
    (hnames : ∀ line, tagged names line = true →
    tagged categoryTags line = true ∨ tagged flagTags line = true) :
    allTags (List.takeWhile truth) names f.lines = allTags (List.filter truth) names f.lines := by
  have hlines : ∀ line ∈ f.lines.filter (tagged names),
      ((words line).drop 1).takeWhile truth = ((words line).drop 1).filter truth := by
    intro line hline
    rw [List.mem_filter] at hline
    exact (takeWhile_eq_filter_iff truth _).mpr (hf.2 line hline.1 (hnames line hline.2))
  exact List.flatMap_congr fun line hline => by rw [hlines line hline]

theorem entry_split (f : File) :
    ∃ front : Str, ∀ keep, entry keep f =
      front ++ '/' :: (allTags keep categoryTags f.lines ++ allTags keep flagTags f.lines) ++ [' ', '0'] :=
  ⟨lastTag priorityTags 2 ['X'] f.lines ++ ' ' :: (lastTag priorityTags 3 "-----------".toList f.lines ++
      ' ' :: (lastTag priorityTags 4 "999.999".toList f.lines ++ ' ' :: (field (f.filename.splitOn '/') 1 ++
      ' ' :: (field (f.filename.splitOn '/') 2 ++ ' ' ::
        (firstTag versionTags 2 "0000".toList f.lines ++ [' ']))))),
    fun keep => by simp [entry, List.intercalate, List.intersperse]⟩

/-- The text of a file's line, with its end. -/
def size (line : Option Str) : Nat := (line.toList.map fun text => text.length + 1).sum

theorem size_printed (arch : Str) (f : File) :
    size (printed arch f) ≤ size (listed arch f) ∧
      (size (printed arch f) = size (listed arch f) → accepted arch f = true → Kept f) := by
  cases hacc : accepted arch f with
  | false => simp [printed, listed, hacc]
  | true =>
    obtain ⟨front, hfront⟩ := entry_split f
    have hlisted : listed arch f = some (entry (List.filter truth) f) := by simp [listed, hacc]
    have hcat := length_allTags categoryTags f.lines
    have hflag := length_allTags flagTags f.lines
    cases htree : truth (field (f.filename.splitOn '/') 1) with
    | false =>
      have hprinted : printed arch f = none := by simp [printed, htree]
      rw [hprinted, hlisted]
      simp [size]
    | true =>
      have hprinted : printed arch f = some (entry (List.takeWhile truth) f) := by simp [printed, hacc, htree]
      rw [hprinted, hlisted, hfront, hfront]
      simp only [size, Option.toList_some, List.map_cons, List.map_nil, List.sum_cons, List.sum_nil,
        List.length_append, List.length_cons, List.length_nil]
      refine ⟨by omega, fun h _ => ⟨htree, ?_⟩⟩
      intro line hline htag
      rcases htag with htag | htag
      · exact hcat.2 (by omega) line hline htag
      · exact hflag.2 (by omega) line hline htag

theorem printed_kept {arch : Str} {f : File} (h : accepted arch f = true → Kept f) :
    printed arch f = listed arch f := by
  cases hacc : accepted arch f with
  | false => simp [printed, listed, hacc]
  | true =>
    have hf := h hacc
    obtain ⟨front, hfront⟩ := entry_split f
    have hentry : entry (List.takeWhile truth) f = entry (List.filter truth) f := by
      rw [hfront, hfront, allTags_kept hf fun _ => .inl, allTags_kept hf fun _ => .inr]
    simp [printed, listed, hacc, hf.1, hentry]

theorem sum_filterMap {α : Type} (g : α → Option Str) (xs : List α) :
    ((xs.filterMap g).map fun text => text.length + 1).sum = (xs.map fun x => size (g x)).sum := by
  induction xs with
  | nil => rfl
  | cons x xs ih => cases hg : g x <;> simp [size, hg, ih]

theorem sum_map_le {α : Type} {g h : α → Nat} {xs : List α} (hle : ∀ x ∈ xs, g x ≤ h x) :
    (xs.map g).sum ≤ (xs.map h).sum ∧ ((xs.map g).sum = (xs.map h).sum → ∀ x ∈ xs, g x = h x) := by
  induction xs with
  | nil => simp
  | cons x xs ih =>
    rw [List.forall_mem_cons] at hle
    obtain ⟨hrest, heq⟩ := ih hle.2
    simp only [List.map_cons, List.sum_cons]
    refine ⟨by omega, fun hsum => ?_⟩
    rw [List.forall_mem_cons]
    exact ⟨by omega, heq (by omega)⟩

/-- The output is one line for each accepted file, in any order, exactly if every accepted file is
kept whole. -/
theorem output_perm_iff (arch : Str) (files : List File) :
    (output arch files).Perm (files.filterMap (listed arch)) ↔
      ∀ f ∈ files, accepted arch f = true → Kept f := by
  rw [output_eq]
  constructor
  · intro hperm f hf
    have hsum := (hperm.map fun text => text.length + 1).sum_nat
    rw [sum_filterMap, sum_filterMap] at hsum
    exact (size_printed arch f).2 ((sum_map_le fun f _ => (size_printed arch f).1).2 hsum f hf)
  · intro h
    rw [List.filterMap_congr fun f hf => printed_kept (h f hf)]

/-- A category behind a zero is lost, and so is a repository whose name is a number with value zero. -/
theorem output_not_map :
    ¬(output "x86-64".toList [⟨"base/gcc/gcc.desc".toList, ["[C] 0 base/development".toList]⟩]).Perm
        ([⟨"base/gcc/gcc.desc".toList,
        ["[C] 0 base/development".toList]⟩].filterMap (listed "x86-64".toList)) ∧
      ¬(output "x86-64".toList [⟨"0/gcc/gcc.desc".toList, ["[V] 9.3.0".toList]⟩]).Perm
        ([⟨"0/gcc/gcc.desc".toList, ["[V] 9.3.0".toList]⟩].filterMap (listed "x86-64".toList)) := by
  decide +kernel

end Agreement

end T2SDE.CreatePkgList
