import Mathlib.Data.List.DropRight
import Mathlib.Data.List.Nodup
import T2SDE.FileList
import T2SDE.Lib.KeySort
import T2SDE.Lib.ShellFields

namespace T2SDE.SharedFiles

open Text StableSort KeySort ShellFields

section Lists

/-- The characters of package names. -/
def nameChar (c : Char) : Bool := c.isLower || c.isDigit || c == '_' || c == '+' || c == '-'

def blank (c : Char) : Bool := c == ' ' || c == '\t'

/-- The lists under var/adm/flists, with the one of a package. -/
structure Lists where
  lists : List FileList
  xpkg : Str
  own : xpkg ∈ lists.map (·.pkg)
  distinct : (lists.map (·.pkg)).Nodup
  once : ∀ l ∈ lists, l.paths.Nodup
  name : ∀ l ∈ lists, l.pkg ≠ [] ∧ ∀ c ∈ l.pkg, nameChar c = true
  plain : ∀ l ∈ lists, ∀ p ∈ l.paths, ∀ c ∈ p, blank c = false ∧ c ≠ '\\'

end Lists

section Program

/-- What the shell knows of the root: `glob` is pathname expansion, `dir` the test for a directory. -/
structure Shell where
  root : Str
  ifs : Str
  glob : Str → List Str
  dir : Str → Bool

/-- `sed "s,^$xpkg:,.,"` -/
def mark (xpkg line : Str) : Str :=
  if xpkg ++ [':'] <+: line then '.' :: line.drop (xpkg.length + 1) else line

/-- What is behind the first field of a line, as the key of `sort -k2` and as what `uniq -f1` compares. -/
def behindField (line : Str) : Str := (line.dropWhile blank).dropWhile fun c => !blank c

def markedLines (L : Lists) : List Str :=
  (L.lists.flatMap fun l => l.paths.map (FileList.entry l.pkg)).map (mark L.xpkg)

/-- The lines that the loop reads. -/
def candidates (L : Lists) : List Str :=
  (uniqD behindField ((markedLines L).insertionSort (KeyLe behindField))).filter fun line =>
    decide (['.', ' '] <+: line)

/-- `read _ file` -/
def readFile (line : Str) : Str := ((behindField line).dropWhile blank).rdropWhile blank

/-- `[ -d $root/$file ]`: without a word the test is about the text `-d`, with several words it fails. -/
def ignored (sh : Shell) (file : Str) : Bool :=
  match splitGlob sh.ifs sh.glob (sh.root ++ '/' :: file) with
  | [] => true
  | [word] => sh.dir word
  | _ => false

/-- The files that are reported as shared with other packages. -/
def reported (L : Lists) (sh : Shell) : List Str :=
  ((candidates L).map readFile).filter fun file => !ignored sh file

end Program

section Purpose

/-- The own list has a path and so has another one. -/
def Shared (L : Lists) (file : Str) : Prop :=
  (∃ l ∈ L.lists, l.pkg = L.xpkg ∧ file ∈ l.paths) ∧ ∃ l ∈ L.lists, l.pkg ≠ L.xpkg ∧ file ∈ l.paths

/-- A path is in the list of another package whose name begins with a sign. -/
def Signed (L : Lists) (file : Str) : Prop :=
  ∃ l ∈ L.lists, l.pkg ≠ L.xpkg ∧ file ∈ l.paths ∧ (l.pkg.head? = some '+' ∨ l.pkg.head? = some '-')

def Shell.directory (sh : Shell) (file : Str) : Bool := sh.dir (sh.root ++ '/' :: file)

/-- The shared files that are no directories are reported, each once. -/
def Reports (L : Lists) (sh : Shell) : Prop :=
  (∀ file, file ∈ reported L sh ↔ Shared L file ∧ sh.directory file = false) ∧ (reported L sh).Nodup

end Purpose

section Lines

variable {L : Lists} {q p file : Str}

/-- The owners and their paths. -/
def entries (L : Lists) : List (Str × Str) := L.lists.flatMap fun l => l.paths.map fun p => (l.pkg, p)

/-- The first field of a marked line. -/
def tag (xpkg q : Str) : Str := if q = xpkg then ['.'] else q ++ [':']

def markedText (xpkg : Str) (e : Str × Str) : Str := tag xpkg e.1 ++ ' ' :: e.2

theorem mem_entries : (q, p) ∈ entries L ↔ ∃ l ∈ L.lists, l.pkg = q ∧ p ∈ l.paths := by
  simp only [entries, List.mem_flatMap, List.mem_map, Prod.mk.injEq]
  constructor
  · rintro ⟨l, hl, p, hp, rfl, rfl⟩
    exact ⟨l, hl, rfl, hp⟩
  · rintro ⟨l, hl, rfl, hp⟩
    exact ⟨l, hl, p, hp, rfl, rfl⟩

theorem name_of_entry (h : (q, p) ∈ entries L) : q ≠ [] ∧ ∀ c ∈ q, nameChar c = true := by
  obtain ⟨l, hl, rfl, -⟩ := mem_entries.mp h
  exact L.name l hl

theorem own_name (L : Lists) : ∀ c ∈ L.xpkg, nameChar c = true := by
  obtain ⟨l, hl, hpkg⟩ := List.mem_map.mp L.own
  exact hpkg ▸ (L.name l hl).2

theorem entries_nodup (L : Lists) : (entries L).Nodup := by
  refine List.nodup_flatMap.mpr ⟨fun l hl => (L.once l hl).map fun a b h => (Prod.mk.inj h).2, ?_⟩
  refine (List.pairwise_map.mp L.distinct).imp fun {l m} hne => ?_
  intro e hl hm
  obtain ⟨p, -, rfl⟩ := List.mem_map.mp hl
  obtain ⟨p', -, heq⟩ := List.mem_map.mp hm
  exact hne (Prod.mk.inj heq).1.symm

theorem not_mem_name {w : Str} (hw : ∀ c ∈ w, nameChar c = true) {c : Char} (hc : nameChar c = false) :
    c ∉ w := by
  intro h
  rw [hw c h] at hc
  cases hc

theorem mark_entry (hx : ∀ c ∈ L.xpkg, nameChar c = true) (hq : ∀ c ∈ q, nameChar c = true) (p : Str) :
    mark L.xpkg (FileList.entry q p) = markedText L.xpkg (q, p) := by
  have hcolon : nameChar ':' = false := by decide
  have hpre : L.xpkg ++ [':'] <+: FileList.entry q p ↔ q = L.xpkg := by
    constructor
    · intro h
      exact (eq_of_prefix_sep (not_mem_name hx hcolon) (not_mem_name hq hcolon) h).symm
    · rintro rfl
      exact ⟨' ' :: p, by simp [FileList.entry]⟩
  by_cases h : q = L.xpkg
  · rw [mark, if_pos (hpre.mpr h), markedText, tag, if_pos h, h]
    simp [FileList.entry]
  · rw [mark, if_neg fun hp => h (hpre.mp hp), markedText, tag, if_neg h]
    simp [FileList.entry]

theorem markedLines_eq (L : Lists) : markedLines L = (entries L).map (markedText L.xpkg) := by
  have hmap : ∀ l ∈ L.lists, (l.paths.map (FileList.entry l.pkg)).map (mark L.xpkg) =
      (l.paths.map fun p => (l.pkg, p)).map (markedText L.xpkg) := by
    intro l hl
    rw [List.map_map, List.map_map]
    exact List.map_congr_left fun p _ => mark_entry (own_name L) (L.name l hl).2 p
  rw [markedLines, entries, List.map_flatMap, List.map_flatMap]
  exact List.flatMap_congr hmap

theorem blank_of_name {c : Char} (h : nameChar c = true) : blank c = false := by
  cases hb : blank c with
  | false => rfl
  | true =>
    simp only [blank, Bool.or_eq_true, beq_iff_eq] at hb
    rcases hb with rfl | rfl <;> exact absurd h (by decide)

theorem blank_tag (hq : ∀ c ∈ q, nameChar c = true) (xpkg : Str) : ∀ c ∈ tag xpkg q, blank c = false := by
  intro c hc
  unfold tag at hc
  split at hc
  · rw [List.mem_singleton.mp hc]
    rfl
  · rcases List.mem_append.mp hc with hc | hc
    · exact blank_of_name (hq c hc)
    · rw [List.mem_singleton.mp hc]
      rfl

theorem tag_inj {xpkg a b : Str} (h : tag xpkg a = tag xpkg b) : a = b := by
  have hends : ∀ q : Str, q ++ [':'] ≠ ['.'] := fun q hq => by
    have := congrArg List.getLast? hq
    simp at this
  unfold tag at h
  split at h <;> split at h
  next ha hb => rw [ha, hb]
  next => exact absurd h.symm (hends b)
  next => exact absurd h (hends a)
  next => exact List.append_cancel_right h

theorem tag_ne_nil (xpkg q : Str) : tag xpkg q ≠ [] := by
  unfold tag
  split <;> simp

theorem dropWhile_free {w : Str} (hw : ∀ c ∈ w, blank c = false) : w.dropWhile blank = w := by
  cases w with
  | nil => rfl
  | cons c w => rw [List.dropWhile_cons_of_neg (by simp [hw c List.mem_cons_self])]

/-- The key of a marked line is its path, with the blank in front. -/
theorem behindField_text {e : Str × Str} (hq : ∀ c ∈ e.1, nameChar c = true) :
    behindField (markedText L.xpkg e) = ' ' :: e.2 := by
  have htag := blank_tag hq L.xpkg
  have hstart : (markedText L.xpkg e).dropWhile blank = markedText L.xpkg e := by
    unfold markedText
    cases htext : tag L.xpkg e.1 with
    | nil => exact absurd htext (tag_ne_nil L.xpkg e.1)
    | cons c w => rw [List.cons_append, List.dropWhile_cons_of_neg (by simp [htag c (by simp [htext])])]
  rw [behindField, hstart, markedText, List.dropWhile_append_of_pos fun c hc => by simp [htag c hc],
    List.dropWhile_cons_of_neg (by decide)]

theorem text_inj {e e' : Str × Str} (he : ∀ c ∈ e.1, nameChar c = true) (he' : ∀ c ∈ e'.1, nameChar c = true)
    (h : markedText L.xpkg e = markedText L.xpkg e') : e = e' := by
  have hpath := congrArg behindField h
  rw [behindField_text he, behindField_text he'] at hpath
  have hpath : e.2 = e'.2 := (List.cons.inj hpath).2
  have htag : tag L.xpkg e.1 = tag L.xpkg e'.1 := by
    rw [markedText, markedText, hpath] at h
    exact List.append_cancel_right h
  exact Prod.ext (tag_inj htag) hpath

theorem markedLines_nodup (L : Lists) : (markedLines L).Nodup := by
  rw [markedLines_eq]
  exact (entries_nodup L).map_on fun e he e' he' h => text_inj (name_of_entry he).2 (name_of_entry he').2 h

/-- The line of the package is in front of that of another owner, but for names that begin with a sign. -/
theorem own_first (hne : q ≠ []) (hq : ∀ c ∈ q, nameChar c = true) (hother : q ≠ L.xpkg) (p : Str) :
    LineLe (markedText L.xpkg (L.xpkg, p)) (markedText L.xpkg (q, p)) ↔
      ¬(q.head? = some '+' ∨ q.head? = some '-') := by
  have hown : markedText L.xpkg (L.xpkg, p) = '.' :: ' ' :: p := by simp [markedText, tag]
  have htext : markedText L.xpkg (q, p) = q ++ ':' :: ' ' :: p := by simp [markedText, tag, hother]
  cases q with
  | nil => exact absurd rfl hne
  | cons c q =>
    have hc := hq c List.mem_cons_self
    rw [hown, htext]
    have hle : LineLe ('.' :: ' ' :: p) (c :: q ++ ':' :: ' ' :: p) ↔ '.'.toNat < c.toNat := by
      have hdot : c ≠ '.' := by
        rintro rfl
        exact absurd hc (by decide)
      simp [LineLe, textLe, hdot.symm]
    rw [hle]
    have hplus : c = '+' ↔ c.toNat = 43 := ⟨fun h => by rw [h]; rfl, fun h => Char.toNat_inj.mp h⟩
    have hminus : c = '-' ↔ c.toNat = 45 := ⟨fun h => by rw [h]; rfl, fun h => Char.toNat_inj.mp h⟩
    have hscore : c = '_' ↔ c.toNat = 95 := ⟨fun h => by rw [h]; rfl, fun h => Char.toNat_inj.mp h⟩
    simp only [nameChar, Bool.or_eq_true, beq_iff_eq, hplus, hminus, hscore] at hc
    simp only [List.head?_cons, Option.some.injEq, hplus, hminus]
    have hdigit := @Char.isDigit_iff_toNat c
    have hlower : c.isLower = true ↔ 97 ≤ c.toNat ∧ c.toNat ≤ 122 := by
      have hchar : c.isLower = (decide (c.val ≥ 'a'.val) && decide (c.val ≤ 'z'.val)) := rfl
      rw [hchar, Bool.and_eq_true_iff, decide_eq_true_iff, decide_eq_true_iff]
      exact and_congr UInt32.le_iff_toNat_le UInt32.le_iff_toNat_le
    have h0 : '0'.toNat = 48 := rfl
    have h9 : '9'.toNat = 57 := rfl
    have hdot : '.'.toNat = 46 := rfl
    rw [hlower, hdigit] at hc
    omega

theorem own_text (xpkg p : Str) : markedText xpkg (xpkg, p) = '.' :: ' ' :: p := by simp [markedText, tag]

/-- The lines that the loop reads are the own ones of files with several owners, none of whose
names begins with a sign. -/
theorem mem_candidates {line : Str} :
    line ∈ candidates L ↔ ∃ p, line = '.' :: ' ' :: p ∧ Shared L p ∧ ¬Signed L p := by
  have hmarked : ∀ {x}, x ∈ markedLines L ↔ ∃ e ∈ entries L, markedText L.xpkg e = x := by
    intro x
    rw [markedLines_eq, List.mem_map]
  have hkey : ∀ {e}, e ∈ entries L → behindField (markedText L.xpkg e) = ' ' :: e.2 :=
    fun he => behindField_text (name_of_entry he).2
  have hown : ∀ {q p}, (q, p) ∈ entries L → (['.', ' '] <+: markedText L.xpkg (q, p) ↔ q = L.xpkg) := by
    intro q p he
    constructor
    · intro h
      by_contra hne
      obtain ⟨hq, hname⟩ := name_of_entry he
      cases q with
      | nil => exact hq rfl
      | cons c q =>
        have hc : '.' = c := by
          simp only [markedText, tag, if_neg hne, List.cons_append, List.cons_prefix_cons] at h
          exact h.1
        exact absurd (hname c List.mem_cons_self) (by rw [← hc]; decide)
    · rintro rfl
      exact ⟨p, by rw [own_text]; rfl⟩
  rw [candidates, List.mem_filter, mem_uniqD_sort (markedLines_nodup L), decide_eq_true_eq]
  constructor
  · rintro ⟨⟨hmem, hleast, y, hy, hyx, hykey⟩, hpre⟩
    obtain ⟨⟨q, p⟩, he, rfl⟩ := hmarked.mp hmem
    obtain rfl := (hown he).mp hpre
    obtain ⟨⟨q', p'⟩, he', rfl⟩ := hmarked.mp hy
    rw [hkey he', hkey he] at hykey
    obtain rfl : p' = p := (List.cons.inj hykey).2
    have hother : q' ≠ L.xpkg := by
      rintro rfl
      exact hyx rfl
    refine ⟨p', own_text _ _, ⟨mem_entries.mp he, ?_⟩, ?_⟩
    · obtain ⟨l, hl, rfl, hp⟩ := mem_entries.mp he'
      exact ⟨l, hl, hother, hp⟩
    · rintro ⟨l, hl, hne, hp, hsign⟩
      have he'' : (l.pkg, p') ∈ entries L := mem_entries.mpr ⟨l, hl, rfl, hp⟩
      obtain ⟨hnil, hname⟩ := name_of_entry he''
      have hle := hleast _ (hmarked.mpr ⟨_, he'', rfl⟩) (by rw [hkey he'', hkey he])
      exact (own_first hnil hname hne p').mp hle hsign
  · rintro ⟨p, rfl, ⟨hmine, l, hl, hne, hp⟩, hsigned⟩
    have he : (L.xpkg, p) ∈ entries L := mem_entries.mpr hmine
    have he' : (l.pkg, p) ∈ entries L := mem_entries.mpr ⟨l, hl, rfl, hp⟩
    rw [← own_text L.xpkg p]
    refine ⟨⟨hmarked.mpr ⟨_, he, rfl⟩, fun y hy hykey => ?_, _, hmarked.mpr ⟨_, he', rfl⟩, ?_, ?_⟩,
      (hown he).mpr rfl⟩
    · obtain ⟨⟨q, p'⟩, hq, rfl⟩ := hmarked.mp hy
      rw [hkey hq, hkey he] at hykey
      obtain rfl : p' = p := (List.cons.inj hykey).2
      by_cases hqx : q = L.xpkg
      · rw [hqx]
        exact lineLe_refl _
      · obtain ⟨hnil, hname⟩ := name_of_entry hq
        obtain ⟨m, hm, rfl, hpm⟩ := mem_entries.mp hq
        exact (own_first hnil hname hqx p').mpr fun hsign => hsigned ⟨m, hm, hqx, hpm, hsign⟩
    · intro h
      exact hne (Prod.mk.inj (text_inj (name_of_entry he').2 (own_name L) h)).1
    · rw [hkey he', hkey he]

theorem readFile_text (hp : ∀ c ∈ p, blank c = false) : readFile ('.' :: ' ' :: p) = p := by
  have hkey : behindField ('.' :: ' ' :: p) = ' ' :: p := by simp [behindField, blank]
  have hend : p.rdropWhile blank = p := by
    rw [List.rdropWhile, dropWhile_free fun c hc => hp c (List.mem_reverse.mp hc), List.reverse_reverse]
  rw [readFile, hkey, List.dropWhile_cons_of_pos (by decide), dropWhile_free hp, hend]

theorem blank_of_shared (h : Shared L p) : ∀ c ∈ p, blank c = false := by
  obtain ⟨⟨l, hl, -, hp⟩, -⟩ := h
  exact fun c hc => (L.plain l hl p hp c hc).1

theorem mem_reported {sh : Shell} :
    file ∈ reported L sh ↔ Shared L file ∧ ¬Signed L file ∧ ignored sh file = false := by
  rw [reported, List.mem_filter, List.mem_map]
  constructor
  · rintro ⟨⟨line, hline, rfl⟩, hnot⟩
    obtain ⟨p, rfl, hshared, hsigned⟩ := mem_candidates.mp hline
    rw [readFile_text (blank_of_shared hshared)] at hnot ⊢
    exact ⟨hshared, hsigned, by simpa using hnot⟩
  · rintro ⟨hshared, hsigned, hnot⟩
    exact ⟨⟨_, mem_candidates.mpr ⟨file, rfl, hshared, hsigned⟩, readFile_text (blank_of_shared hshared)⟩,
      by simpa using hnot⟩

theorem reported_nodup (L : Lists) (sh : Shell) : (reported L sh).Nodup := by
  refine List.Nodup.filter _ (List.Nodup.map_on ?_ (List.Nodup.filter _ ?_))
  · intro a ha b hb h
    obtain ⟨p, rfl, hp, -⟩ := mem_candidates.mp ha
    obtain ⟨p', rfl, hp', -⟩ := mem_candidates.mp hb
    rw [readFile_text (blank_of_shared hp), readFile_text (blank_of_shared hp')] at h
    rw [h]
  · have hperm := List.perm_insertionSort (KeyLe behindField) (markedLines L)
    exact (uniqD_sublist behindField _).nodup (hperm.nodup_iff.mpr (markedLines_nodup L))

end Lines

/-- The shared files are reported as they should be if and only if no other owner of one has a
name that begins with a sign, and the test in the loop tells the directories from the files. -/
theorem reports_iff (L : Lists) (sh : Shell) :
    Reports L sh ↔ ∀ file, Shared L file →
      (sh.directory file = false → ¬Signed L file ∧ ignored sh file = false) ∧
        (sh.directory file = true → Signed L file ∨ ignored sh file = true) := by
  have honce := reported_nodup L sh
  simp only [Reports, honce, and_true, mem_reported]
  refine forall_congr' fun file => ?_
  constructor
  · intro h hshared
    refine ⟨fun hdir => (h.mpr ⟨hshared, hdir⟩).2, fun hdir => ?_⟩
    by_contra hnot
    rw [not_or, Bool.not_eq_true] at hnot
    have := (h.mp ⟨hshared, hnot⟩).2
    rw [hdir] at this
    cases this
  · intro h
    refine and_congr_right fun hshared => ⟨fun hnot => ?_, (h hshared).1⟩
    by_contra hdir
    rcases (h hshared).2 (by simpa using hdir) with hsigned | hign
    · exact hnot.1 hsigned
    · rw [hign] at hnot
      cases hnot.2

def sampleList (pkg : Str) (h : ∀ c ∈ pkg, c ∉ [' ', '\t', '\n', CString.nul]) : FileList where
  pkg := pkg
  paths := ["etc/x".toList]
  pkg_word := h
  path_line := fun p hp => List.mem_singleton.mp hp ▸ ⟨by simp, not_mem_of_all rfl⟩

/-- The packages `a` and `+b` have the same file. -/
def signedLists : Lists where
  lists := [sampleList "+b".toList (not_mem_of_all rfl), sampleList "a".toList (not_mem_of_all rfl)]
  xpkg := "a".toList
  own := by simp [sampleList]
  distinct := by simp [sampleList]
  once := by simp [sampleList]
  name := by simp [sampleList, nameChar]
  plain := by simp [sampleList, blank]

def sampleShell : Shell := ⟨"/".toList, " \t\n".toList, fun w => [w], fun _ => false⟩

theorem signed_not_reported : ¬Reports signedLists sampleShell := by
  intro h
  have hshared : Shared signedLists "etc/x".toList :=
    ⟨⟨_, List.mem_cons_of_mem _ (List.mem_singleton_self _), rfl, List.mem_singleton_self _⟩,
      ⟨_, List.mem_cons_self, by simp [sampleList, signedLists], List.mem_singleton_self _⟩⟩
  have hmissing : "etc/x".toList ∉ reported signedLists sampleShell := by decide +kernel
  exact hmissing ((h.1 _).mpr ⟨hshared, rfl⟩)

end T2SDE.SharedFiles
