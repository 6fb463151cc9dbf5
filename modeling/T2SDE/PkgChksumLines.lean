import Mathlib.Algebra.Ring.Nat
import T2SDE.PkgChksum

namespace T2SDE.ChksumLines

open Text Chksum

section Purpose

/-- The tags that are not vital for a rebuild, but for `[CV-...]`. -/
def tags : List Str := "[COPY]".toList :: "TIUAMLSC".toList.map fun c => ['[', c, ']']

def isTag (s : Str) : Bool :=
  tags.any (·.isPrefixOf s) || "[CV-".toList.isPrefixOf s && (s.drop 4).contains ']'

/-- Blank lines, comments and lines with one of the tags, whatever blanks and tabs there are. -/
def unimportant (line : Str) : Bool :=
  strip line == [] || (strip line).head? == some '#' || isTag (strip line)

/-- What counts of a line. -/
def important (line : Str) : Option Str := if unimportant line then none else some (strip line)

/-- The lines of a text that have their newline, and what follows the last of them. -/
def cut (line : Str) : Str → List Str × Str
  | [] => ([], line)
  | c :: s => if c = '\n' then (line :: (cut [] s).1, (cut [] s).2) else cut (line ++ [c]) s

def kept (content : Str) : List Str := (cut [] content).1.filterMap important

/-- The contents of a file with other blanks, tabs and unimportant lines. -/
def SameLines (content content' : Str) : Prop :=
  kept content = kept content' ∧ important (cut [] content).2 = important (cut [] content').2

/-- The entries below a path that `find` prints, with what it prints of their contents. -/
def printed (path : Str) : Listing → List (Str × Str)
  | .nil => []
  | .file name content rest =>
    (if shown (path ++ '/' :: name) name then [(path ++ '/' :: name, content)] else []) ++ printed path rest
  | .dir name below rest =>
    (if shown (path ++ '/' :: name) name then [(path ++ '/' :: name, [])] else []) ++
      printed (path ++ '/' :: name) below ++ printed path rest

/-- All that the checksum is about. -/
def read (confdir : Listing) : List (Str × Str) := printed ['.'] confdir

/-- The same names in the same order, with other contents. -/
inductive Edited : Listing → Listing → Prop
  | nil : Edited .nil .nil
  | file {r r' : Listing} (name content content' : Str) (h : Edited r r') :
    Edited (.file name content r) (.file name content' r')
  | dir {b b' r r' : Listing} (name : Str) (hb : Edited b b') (h : Edited r r') :
    Edited (.dir name b r) (.dir name b' r')

/-- Only what is unimportant is changed, in any number of files. -/
def Alike (t t' : Listing) : Prop := List.Forall₂ (fun e e' => SameLines e.2 e'.2) (read t) (read t')

def counts (t : Listing) : List Nat := (read t).map fun e => (kept e.2).length

/-- Lines that count are changed in any number of files, but they get more or less in one of them only. -/
def InPlace (t t' : Listing) : Prop := ∃ k : Nat, ∀ j : Nat, j ≠ k → (counts t)[j]? = (counts t')[j]?

/-- All lines of the files are among some lines. -/
def Over (lines : Str → Prop) (t : Listing) : Prop :=
  ∀ e ∈ read t, (∀ line ∈ (cut [] e.2).1, lines line) ∧ ((cut [] e.2).2 ≠ [] → lines (cut [] e.2).2)

/-- Each file that another entry follows has a newline at its end. -/
def Closed (t : Listing) : Prop := ∀ e ∈ (read t).dropLast, (cut [] e.2).2 = []

/-- The checksum ignores what is unimportant, and nothing else, where the files have no lines but some. -/
def Meets (lines : Str → Prop) (closed : Bool) : Prop :=
  ∀ t t', Edited t t' → Over lines t → Over lines t' → (closed = true → Closed t ∧ Closed t') →
    (Alike t t' → ∀ md5sum, pkgchksum md5sum t' = pkgchksum md5sum t) ∧
      (¬Alike t t' → InPlace t t' → summed t' ≠ summed t)

/-- `^\[CV-*\]` -/
def isDashed (line : Str) : Bool :=
  "[CV".toList.isPrefixOf line && ((line.drop 3).dropWhile (· == '-')).head? == some ']'

/-- The lines that `sed` takes for something else. -/
inductive Misread (line : Str) : Prop
  | comment (hash : (strip line).head? = some '#') (tab : (line.dropWhile (· == ' ')).head? ≠ some '#')
  | tag (tag : Str) (mem : tag ∈ tags) (here : tag <+: strip line) (blanks : ¬tag <+: line)
  | version (here : "[CV-".toList <+: strip line) (close : ']' ∈ (strip line).drop 4)
    (name : isDashed line = false)
  | other (here : "[,]".toList <+: line ∨ "[CV]".toList <+: line)

end Purpose

section Prefixes

variable {p q s u v line : Str}

theorem strip_prefix (h : p <+: s) : strip p <+: strip s := List.IsPrefix.filter _ h

/-- Two texts that are not one the beginning of the other are not both at the beginning of a third. -/
theorem apart (hp : p <+: s) (hq : q <+: s) (hpq : ¬p <+: q) (hqp : ¬q <+: p) : False := by
  rcases List.prefix_or_prefix_of_prefix hp hq with h | h
  · exact hpq h
  · exact hqp h

theorem head_of_prefix {c : Char} (h : c :: p <+: s) : s.head? = some c := by
  obtain ⟨rest, rfl⟩ := h
  rfl

theorem prefix_of_free {d : Char} (hd : d ∉ p) (h : p <+: u ++ d :: v) : p <+: u := by
  rcases List.prefix_or_prefix_of_prefix h (List.prefix_append u (d :: v)) with hle | ⟨w, rfl⟩
  · exact hle
  · rw [List.prefix_append_right_inj] at h
    cases w with
    | nil => rw [List.append_nil]
    | cons c w =>
      obtain ⟨rfl, -⟩ := List.cons_prefix_cons.mp h
      exact absurd (List.mem_append_right u List.mem_cons_self) hd

theorem head_dropWhile_of_free {c d : Char} {keep : Char → Bool} (hd : keep d = false) (hne : c ≠ d)
    (h : ((u ++ d :: v).dropWhile keep).head? = some c) : (u.dropWhile keep).head? = some c := by
  rw [List.dropWhile_append] at h
  by_cases hall : (u.dropWhile keep).isEmpty = true
  · rw [if_pos hall, List.dropWhile_cons_of_neg (by simp [hd])] at h
    exact absurd (Option.some.inj h).symm hne
  · rw [if_neg hall] at h
    rw [List.isEmpty_iff] at hall
    obtain ⟨b, w, hw⟩ := List.exists_cons_of_ne_nil hall
    rw [hw] at h ⊢
    exact h

/-- What stands at the beginning of a line that is deleted, or ought to be. -/
def marks : List Str := "[,]".toList :: "[CV".toList :: tags

theorem marks_bracket {mark : Str} (h : mark ∈ marks) :
    mark.head? = some '[' ∧ strip mark = mark ∧ '.' ∉ mark := by
  have hall : marks.all (fun mark => mark.head? == some '[' && strip mark == mark && !mark.contains '.') =
    true := rfl
  simpa [and_assoc] using List.all_eq_true.mp hall mark h

/-- None of them is the beginning of another one. -/
theorem marks_apart {mark other : Str} (h : mark ∈ marks) (ho : other ∈ marks) (hmark : mark <+: s)
    (hother : other <+: s) : mark = other := by
  have hall : marks.all (fun mark => marks.all fun other =>
      mark == other || !mark.isPrefixOf other && !other.isPrefixOf mark) = true := rfl
  have hpair := List.all_eq_true.mp (List.all_eq_true.mp hall mark h) other ho
  rw [Bool.or_eq_true, beq_iff_eq] at hpair
  refine hpair.resolve_right fun hapart => ?_
  rw [Bool.and_eq_true, Bool.not_eq_true', Bool.not_eq_true', ← Bool.not_eq_true, ← Bool.not_eq_true,
    List.isPrefixOf_iff_prefix, List.isPrefixOf_iff_prefix] at hapart
  exact apart hmark hother hapart.1 hapart.2

theorem mem_marks {tag : Str} (h : tag ∈ "[,]".toList :: tags) : tag ∈ marks := by
  rcases List.mem_cons.mp h with rfl | h
  · exact List.mem_cons_self
  · exact List.mem_cons_of_mem _ (List.mem_cons_of_mem _ h)

theorem cv_mem_marks : "[CV".toList ∈ marks := List.mem_cons_of_mem _ List.mem_cons_self

theorem mark_ne_cv {tag : Str} (h : tag ∈ "[,]".toList :: tags) : tag ≠ "[CV".toList := by
  have hall : ("[,]".toList :: tags).all (fun tag => tag != "[CV".toList) = true := rfl
  exact bne_iff_ne.mp (List.all_eq_true.mp hall tag h)

theorem strip_mark {mark : Str} (h : mark ∈ marks) (hline : mark <+: line) : mark <+: strip line := by
  have hstrip := strip_prefix hline
  rwa [(marks_bracket h).2.1] at hstrip

theorem head_mark {mark : Str} (h : mark ∈ marks) (hs : mark <+: s) : s.head? = some '[' := by
  obtain ⟨w, hw⟩ := List.head?_eq_some_iff.mp (marks_bracket h).1
  rw [hw] at hs
  exact head_of_prefix hs

theorem isTag_iff : isTag s = true ↔ (∃ tag ∈ tags, tag <+: s) ∨ "[CV-".toList <+: s ∧ ']' ∈ s.drop 4 := by
  rw [isTag, Bool.or_eq_true, Bool.and_eq_true, List.any_eq_true, List.isPrefixOf_iff_prefix,
    List.contains_iff_mem]
  simp only [List.isPrefixOf_iff_prefix]

theorem letter_iff (letters line : Str) :
    (line.head? == some '[' && line.tail.head?.any (fun c => letters.contains c) &&
    line.tail.tail.head? == some ']') = true ↔ ∃ c ∈ letters, ['[', c, ']'] <+: line := by
  match line with
  | [] => simp
  | [a] => simp
  | [a, b] => simp
  | a :: b :: d :: rest =>
    simp only [List.head?_cons, List.tail_cons, Option.any_some, Bool.and_eq_true, beq_iff_eq,
      Option.some.injEq,
      List.contains_iff_mem, List.cons_prefix_cons, List.nil_prefix, and_true]
    constructor
    · rintro ⟨⟨rfl, hb⟩, rfl⟩
      exact ⟨b, hb, rfl, rfl, rfl⟩
    · rintro ⟨c, hc, rfl, rfl, rfl⟩
      exact ⟨⟨rfl, hc⟩, rfl⟩

/-- The comma is a letter of `sed`. -/
theorem letters_iff (c : Char) : c ∈ "T,I,U,A,M,L,S,C".toList ↔ c = ',' ∨ c ∈ "TIUAMLSC".toList := by
  have hleft : "T,I,U,A,M,L,S,C".toList = ['T', ',', 'I', ',', 'U', ',', 'A', ',', 'M', ',', 'L', ',',
    'S', ',', 'C'] :=
    rfl
  have hright : "TIUAMLSC".toList = ['T', 'I', 'U', 'A', 'M', 'L', 'S', 'C'] := rfl
  rw [hleft, hright]
  simp only [List.mem_cons, List.not_mem_nil, or_false]
  tauto

theorem deleted_iff : deleted line = true ↔ (line.dropWhile (· == ' ')).head? = some '#' ∨
    isDashed line = true ∨ ∃ tag ∈ "[,]".toList :: tags, tag <+: line := by
  have htags : (∃ tag ∈ "[,]".toList :: tags, tag <+: line) ↔
      "[COPY]".toList <+: line ∨ ∃ c ∈ "T,I,U,A,M,L,S,C".toList, ['[', c, ']'] <+: line := by
    simp only [tags, letters_iff, List.exists_mem_cons_iff, List.mem_map, exists_exists_and_eq_and,
      or_and_right,
      exists_or, exists_eq_left]
    exact or_left_comm
  rw [htags, deleted, Bool.or_eq_true, Bool.or_eq_true, Bool.or_eq_true, letter_iff,
    List.isPrefixOf_iff_prefix,
    beq_iff_eq, ← isDashed]
  tauto

end Prefixes

section Lines

variable {line s : Str}

theorem strip_comment (h : (line.dropWhile (· == ' ')).head? = some '#') : (strip line).head? = some '#' := by
  obtain ⟨rest, hrest⟩ := List.head?_eq_some_iff.mp h
  have hspaces : strip (line.takeWhile (· == ' ')) = [] := by
    refine List.filter_eq_nil_iff.mpr fun c hc => ?_
    obtain rfl : c = ' ' := by simpa using List.all_eq_true.mp List.all_takeWhile c hc
    decide
  rw [← List.takeWhile_append_dropWhile (p := (· == ' ')) (l := line), strip_append, hspaces, hrest]
  rfl

theorem isDashed_spec (h : isDashed line = true) : "[CV".toList <+: line ∧
    ("[CV]".toList <+: line ∨ "[CV-".toList <+: strip line ∧ ']' ∈ (strip line).drop 4) := by
  rw [isDashed, Bool.and_eq_true, List.isPrefixOf_iff_prefix, beq_iff_eq] at h
  obtain ⟨⟨rest, rfl⟩, hclose⟩ := h
  refine ⟨List.prefix_append _ rest, ?_⟩
  change (rest.dropWhile (· == '-')).head? = some ']' at hclose
  cases rest with
  | nil => cases hclose
  | cons c rest =>
    by_cases hc : c = '-'
    · subst hc
      refine .inr ⟨⟨strip rest, rfl⟩, ?_⟩
      have hmem : ']' ∈ rest := (List.dropWhile_suffix _).subset (List.mem_of_head? hclose)
      exact List.mem_filter.mpr ⟨hmem, rfl⟩
    · rw [List.dropWhile_cons_of_neg (by simpa using hc)] at hclose
      obtain rfl := Option.some.inj hclose
      exact .inl ⟨rest, rfl⟩

theorem unimportant_iff : unimportant line = true ↔
    strip line = [] ∨ (strip line).head? = some '#' ∨ isTag (strip line) = true := by
  rw [unimportant, Bool.or_eq_true, Bool.or_eq_true, beq_iff_eq, beq_iff_eq, or_assoc]

theorem edit_eq (line : Str) : edit line = if deleted line = true ∨ strip line = [] then none
    else some (strip line) := by
  rw [edit]
  by_cases hdeleted : deleted line = true
  · rw [if_pos hdeleted, if_pos (.inl hdeleted)]
  · rw [if_neg hdeleted]
    by_cases hblank : strip line = []
    · rw [if_pos hblank, if_pos (.inr hblank)]
    · rw [if_neg hblank, if_neg (by tauto)]

/-- `sed` and the purpose agree on a line just where they agree to leave it out. -/
theorem edit_eq_important_iff : edit line = important line ↔
    (deleted line = true ∨ strip line = [] ↔ unimportant line = true) := by
  rw [edit_eq, important]
  by_cases hleft : deleted line = true ∨ strip line = []
  · by_cases hright : unimportant line = true
    · rw [if_pos hleft, if_pos hright]
      tauto
    · rw [if_pos hleft, if_neg hright]
      simp [hleft, hright]
  · by_cases hright : unimportant line = true
    · rw [if_neg hleft, if_pos hright]
      simp [hleft, hright]
    · rw [if_neg hleft, if_neg hright]
      tauto

theorem unimportant_of_deleted (h : deleted line = true)
    (hother : ¬("[,]".toList <+: line ∨ "[CV]".toList <+: line)) :
    unimportant line = true := by
  rw [not_or] at hother
  rw [unimportant_iff, isTag_iff]
  rcases deleted_iff.mp h with h | h | ⟨tag, hmem, h⟩
  · exact .inr (.inl (strip_comment h))
  · exact .inr (.inr (.inr ((isDashed_spec h).2.resolve_left hother.2)))
  · rcases List.mem_cons.mp hmem with rfl | htag
    · exact absurd h hother.1
    · exact .inr (.inr (.inl ⟨tag, htag, strip_mark (mem_marks hmem) h⟩))

theorem edit_eq_important (h : ¬Misread line) : edit line = important line := by
  rw [edit_eq_important_iff]
  constructor
  · rintro (hdeleted | hblank)
    · exact unimportant_of_deleted hdeleted fun hother => h (.other hother)
    · exact unimportant_iff.mpr (.inl hblank)
  · rw [unimportant_iff, isTag_iff, deleted_iff]
    rintro (hblank | hhash | ⟨tag, hmem, hhere⟩ | ⟨hhere, hclose⟩)
    · exact .inr hblank
    · exact .inl (.inl (by_contra fun htab => h (.comment hhash htab)))
    · exact .inl (.inr (.inr ⟨tag, List.mem_cons_of_mem _ hmem, by_contra fun hblanks =>
        h (.tag tag hmem hhere hblanks)⟩))
    · exact .inl (.inr (.inl (by_contra fun hname =>
        h (.version hhere hclose (Bool.eq_false_iff.mpr hname)))))

/-- What is deleted is a comment, or has a mark in front. -/
theorem mark_of_deleted (h : deleted line = true) (hhash : (line.dropWhile (· == ' ')).head? ≠ some '#') :
    isDashed line = true ∧ "[CV".toList <+: strip line ∨
      ∃ tag ∈ "[,]".toList :: tags, tag <+: line ∧ tag <+: strip line := by
  rcases deleted_iff.mp h with h | h | ⟨tag, hmem, h⟩
  · exact absurd h hhash
  · exact .inl ⟨h, strip_mark cv_mem_marks (isDashed_spec h).1⟩
  · exact .inr ⟨tag, hmem, h, strip_mark (mem_marks hmem) h⟩

section Marked

variable {mark : Str} (hmark : mark ∈ marks) (hhere : mark <+: strip line)

include hmark hhere

theorem no_comment_of_mark : strip line ≠ [] ∧ (strip line).head? ≠ some '#' ∧
    (line.dropWhile (· == ' ')).head? ≠ some '#' := by
  have hhead := head_mark hmark hhere
  have hhash : (strip line).head? ≠ some '#' := by
    rw [hhead]
    decide
  refine ⟨?_, hhash, fun h => hhash (strip_comment h)⟩
  intro hnil
  rw [hnil] at hhead
  cases hhead

theorem not_deleted_of_mark (hdashed : mark = "[CV".toList → isDashed line = false)
    (htag : mark <+: line → mark ∉ "[,]".toList :: tags) : ¬(deleted line = true ∨ strip line = []) := by
  obtain ⟨hblank, -, hhash⟩ := no_comment_of_mark hmark hhere
  rintro (hdeleted | hnil)
  · rcases mark_of_deleted hdeleted hhash with ⟨h, hcv⟩ | ⟨tag, hmem, hline, htagged⟩
    · rw [hdashed (marks_apart hmark cv_mem_marks hhere hcv)] at h
      cases h
    · obtain rfl := marks_apart hmark (mem_marks hmem) hhere htagged
      exact htag hline hmem
  · exact hblank hnil

theorem important_of_mark (htag : mark ∉ tags) (hcv : mark = "[CV".toList → ¬"[CV-".toList <+: strip line) :
    ¬unimportant line = true := by
  obtain ⟨hblank, hhash, -⟩ := no_comment_of_mark hmark hhere
  rw [unimportant_iff, isTag_iff]
  rintro (hnil | hcomment | ⟨tag, hmem, htagged⟩ | ⟨hversion, -⟩)
  · exact hblank hnil
  · exact hhash hcomment
  · rw [marks_apart hmark (mem_marks (List.mem_cons_of_mem _ hmem)) hhere htagged] at htag
    exact htag hmem
  · have hprefix : "[CV".toList <+: strip line := List.IsPrefix.trans ⟨['-'], rfl⟩ hversion
    exact hcv (marks_apart hmark cv_mem_marks hhere hprefix) hversion

end Marked

theorem edit_ne_important (h : Misread line) : edit line ≠ important line := by
  rw [Ne, edit_eq_important_iff]
  intro hiff
  cases h with
  | comment hhash htab =>
    rcases hiff.mpr (unimportant_iff.mpr (.inr (.inl hhash))) with hdeleted | hblank
    · rcases mark_of_deleted hdeleted htab with ⟨-, h⟩ | ⟨tag, hmem, -, h⟩
      · exact (no_comment_of_mark cv_mem_marks h).2.1 hhash
      · exact (no_comment_of_mark (mem_marks hmem) h).2.1 hhash
    · rw [hblank] at hhash
      cases hhash
  | tag tag hmem hhere hblanks =>
    have htags : tag ∈ "[,]".toList :: tags := List.mem_cons_of_mem _ hmem
    refine not_deleted_of_mark (mem_marks htags) hhere ?_ (fun hline => absurd hline hblanks) (hiff.mpr ?_)
    · exact fun hcv => absurd hcv (mark_ne_cv htags)
    · exact unimportant_iff.mpr (.inr (.inr (isTag_iff.mpr (.inl ⟨tag, hmem, hhere⟩))))
  | version hhere hclose hname =>
    have hcv : "[CV".toList <+: strip line := List.IsPrefix.trans ⟨['-'], rfl⟩ hhere
    refine not_deleted_of_mark cv_mem_marks hcv (fun _ => hname) (fun _ hmem => mark_ne_cv hmem rfl)
      (hiff.mpr ?_)
    exact unimportant_iff.mpr (.inr (.inr (isTag_iff.mpr (.inr ⟨hhere, hclose⟩))))
  | other hhere =>
    rcases hhere with hcomma | hcv
    · have hmem : "[,]".toList ∈ "[,]".toList :: tags := List.mem_cons_self
      refine important_of_mark (mem_marks hmem) (strip_mark (mem_marks hmem) hcomma) (by decide) ?_
        (hiff.mp ?_)
      · exact fun h => absurd h (mark_ne_cv hmem)
      · exact .inl (deleted_iff.mpr (.inr (.inr ⟨_, hmem, hcomma⟩)))
    · have hstrip : "[CV]".toList <+: strip line := strip_prefix hcv
      have hprefix : "[CV".toList <+: strip line := List.IsPrefix.trans ⟨[']'], rfl⟩ hstrip
      refine important_of_mark cv_mem_marks hprefix (by decide) (fun _ hversion => ?_) (hiff.mp ?_)
      · exact apart hstrip hversion (by decide) (by decide)
      · obtain ⟨rest, rfl⟩ := hcv
        exact .inl (deleted_iff.mpr (.inr (.inl rfl)))

end Lines

section Streams

variable {line l s front path content : Str} {blocks : List (Str × Str)}

/-- What `sed` prints for a whole line. -/
def ended (line : Str) : Str := (edit line).elim [] (· ++ ['\n'])

theorem cut_line (hl : '\n' ∉ l) (line s : Str) :
    cut line (l ++ '\n' :: s) = ((line ++ l) :: (cut [] s).1, (cut [] s).2) := by
  induction l generalizing line with
  | nil => rw [List.nil_append, cut, if_pos rfl, List.append_nil]
  | cons c l ih =>
    rw [List.mem_cons, not_or] at hl
    rw [List.cons_append, cut, if_neg (Ne.symm hl.1), ih hl.2, List.append_assoc, List.singleton_append]

/-- `sed` prints the whole lines of a text and goes on with the rest. -/
theorem sedLoop_cut (line content s : Str) :
    sedLoop line (content ++ s) = (cut line content).1.flatMap ended ++ sedLoop (cut line content).2 s := by
  induction content generalizing line with
  | nil => rfl
  | cons c content ih =>
    rw [List.cons_append, sedLoop, cut]
    by_cases hc : c = '\n'
    · rw [if_pos hc, if_pos hc, ih, List.flatMap_cons, List.append_assoc]
      rfl
    · rw [if_neg hc, if_neg hc, ih]

theorem cut_newline (line s : Str) : (cut line (s ++ ['\n'])).2 = [] := by
  induction s generalizing line with
  | nil => rfl
  | cons c s ih =>
    rw [List.cons_append, cut]
    by_cases hc : c = '\n'
    · rw [if_pos hc]
      exact ih []
    · rw [if_neg hc]
      exact ih (line ++ [c])

/-- Only the first line of a path is joined to what stands in front of it. -/
theorem cut_path (hpath : path.head? = some '.') : ∃ first more, '\n' ∉ first ∧
    ∀ front, cut front (path ++ ['\n']) = ((front ++ '.' :: first) :: more, []) := by
  obtain ⟨q, rfl⟩ := List.head?_eq_some_iff.mp hpath
  obtain ⟨first, rest, hq, hfirst⟩ := List.eq_append_cons_of_mem
    (List.mem_append_right q (List.mem_singleton_self '\n'))
  have hdot : '\n' ∉ '.' :: first := by
    rw [List.mem_cons, not_or]
    exact ⟨by decide, hfirst⟩
  refine ⟨first, (cut [] rest).1, hfirst, fun front => Prod.ext ?_ (cut_newline front _)⟩
  rw [List.cons_append, hq, ← List.cons_append, cut_line hdot]

/-- All that `find` prints. -/
def stream (blocks : List (Str × Str)) : Str := blocks.flatMap fun e => e.1 ++ '\n' :: e.2

theorem find_eq_stream (path : Str) (t : Listing) : find path t = stream (printed path t) := by
  induction t generalizing path with
  | nil => rfl
  | file name content rest ih =>
    rw [find, printed, stream, List.flatMap_append, ← stream, ← stream, ih]
    by_cases hshown : shown (path ++ '/' :: name) name = true
    · rw [if_pos hshown, if_pos hshown]
      simp [stream]
    · rw [if_neg hshown, if_neg hshown]
      rfl
  | dir name below rest ihb ih =>
    rw [find, printed, stream, List.flatMap_append, List.flatMap_append, ← stream, ← stream, ← stream, ih,
      ihb]
    by_cases hshown : shown (path ++ '/' :: name) name = true
    · rw [if_pos hshown, if_pos hshown]
      simp [stream]
    · rw [if_neg hshown, if_neg hshown]
      rfl

/-- A line that is not deleted alone is not deleted with a path behind it. -/
theorem edit_joined (h : deleted front = false) (first : Str) :
    edit (front ++ '.' :: first) = some (strip front ++ '.' :: strip first) := by
  have hkept : ¬deleted (front ++ '.' :: first) = true := by
    rw [← Bool.not_eq_true, deleted_iff] at h
    rw [deleted_iff]
    rintro (hhash | hdashed | ⟨tag, hmem, htag⟩)
    · exact h (.inl (head_dropWhile_of_free rfl (by decide) hhash))
    · refine h (.inr (.inl ?_))
      obtain ⟨rest, rfl⟩ := prefix_of_free (by decide) (isDashed_spec hdashed).1
      rw [isDashed, Bool.and_eq_true, beq_iff_eq] at hdashed ⊢
      exact ⟨rfl, head_dropWhile_of_free rfl (by decide) hdashed.2⟩
    · exact h (.inr (.inr ⟨tag, hmem, prefix_of_free (marks_bracket (mem_marks hmem)).2.2 htag⟩))
  have hstrip : strip (front ++ '.' :: first) = strip front ++ '.' :: strip first := strip_append _ _
  rw [edit, if_neg hkept, hstrip, if_neg (by simp)]

/-- What is printed if just what is unimportant is left out. -/
def normal (front : Str) : List (Str × Str) → Str
  | [] => (important front).getD []
  | (path, content) :: blocks => (important front).getD [] ++ (sed (path ++ ['\n']) ++
    ((kept content).flatMap (· ++ ['\n']) ++ normal (cut [] content).2 blocks))

/-- A path can follow in the same line. -/
def Joinable (front : Str) : Prop := unimportant front = true → strip front = []

theorem strip_ne_nil (h : deleted line = true) : strip line ≠ [] := by
  by_cases hhash : (line.dropWhile (· == ' ')).head? = some '#'
  · have hhead := strip_comment hhash
    intro hnil
    rw [hnil] at hhead
    cases hhead
  · rcases mark_of_deleted h hhash with ⟨-, hmark⟩ | ⟨tag, hmem, -, hmark⟩
    · exact (no_comment_of_mark cv_mem_marks hmark).1
    · exact (no_comment_of_mark (mem_marks hmem) hmark).1

theorem Joinable.not_deleted (h : Joinable front) (hfront : ¬Misread front) :
    deleted front = false ∧ strip front = (important front).getD [] := by
  have hiff := edit_eq_important_iff.mp (edit_eq_important hfront)
  constructor
  · rw [← Bool.not_eq_true]
    exact fun hdeleted => strip_ne_nil hdeleted (h (hiff.mp (.inl hdeleted)))
  · rw [important]
    by_cases hun : unimportant front = true
    · rw [if_pos hun, h hun]
      rfl
    · rw [if_neg hun]
      rfl

theorem sedLoop_path (hpath : path.head? = some '.') (h : Joinable front) (hfront : ¬Misread front)
    (s : Str) :
    sedLoop front (path ++ '\n' :: s) = (important front).getD [] ++
    (sed (path ++ ['\n']) ++ sedLoop [] s) := by
  obtain ⟨first, more, -, hcut⟩ := cut_path hpath
  obtain ⟨hkept, hstrip⟩ := h.not_deleted hfront
  have hfirst : ended (front ++ '.' :: first) = strip front ++ ended ('.' :: first) := by
    rw [ended, ended, edit_joined hkept, edit_dot, Option.elim_some, Option.elim_some, List.append_assoc]
  have hprinted : sed (path ++ ['\n']) = ended ('.' :: first) ++ more.flatMap ended := by
    have hall := sedLoop_cut [] (path ++ ['\n']) []
    rw [List.append_nil, hcut] at hall
    exact hall.trans (List.append_nil _)
  have hline := sedLoop_cut front (path ++ ['\n']) s
  rw [List.append_assoc, List.singleton_append, hcut, List.flatMap_cons, hfirst] at hline
  rw [hline, hprinted, ← hstrip]
  simp only [List.append_assoc]

theorem ended_kept {pieces : List Str} (h : ∀ line ∈ pieces, ¬Misread line) :
    pieces.flatMap ended = (pieces.filterMap important).flatMap (· ++ ['\n']) := by
  induction pieces with
  | nil => rfl
  | cons line pieces ih =>
    rw [List.forall_mem_cons] at h
    rw [List.flatMap_cons, ih h.2, ended, edit_eq_important h.1]
    cases hline : important line with
    | none => rw [List.filterMap_cons_none hline, Option.elim_none, List.nil_append]
    | some s => rw [List.filterMap_cons_some hline, List.flatMap_cons, Option.elim_some]

/-- Where no line is misread, `sed` prints what counts. -/
theorem sedLoop_stream (hpaths : ∀ e ∈ blocks, e.1.head? = some '.') (hfront : ¬Misread front)
    (hjoin : blocks ≠ [] → Joinable front)
    (hlines : ∀ e ∈ blocks, (∀ line ∈ (cut [] e.2).1, ¬Misread line) ∧ ¬Misread (cut [] e.2).2)
    (hclosed : ∀ e ∈ blocks.dropLast, Joinable (cut [] e.2).2) :
    sedLoop front (stream blocks) = normal front blocks := by
  induction blocks generalizing front with
  | nil =>
    change (edit front).getD [] = _
    rw [edit_eq_important hfront, normal]
  | cons e blocks ih =>
    obtain ⟨path, content⟩ := e
    rw [List.forall_mem_cons] at hpaths hlines
    have hlast : blocks ≠ [] → Joinable (cut [] content).2 := by
      intro hne
      refine hclosed (path, content) ?_
      rw [List.dropLast_cons_of_ne_nil hne]
      exact List.mem_cons_self
    have hrest : ∀ e ∈ blocks.dropLast, Joinable (cut [] e.2).2 := by
      intro e he
      have hne : blocks ≠ [] := by
        rintro rfl
        exact absurd he List.not_mem_nil
      refine hclosed e ?_
      rw [List.dropLast_cons_of_ne_nil hne]
      exact List.mem_cons_of_mem _ he
    have hcontent := sedLoop_cut [] content (stream blocks)
    rw [ended_kept hlines.1.1, ih hpaths.2 hlines.1.2 hlast hlines.2 hrest] at hcontent
    rw [stream, List.flatMap_cons, ← stream, List.append_assoc, List.cons_append,
      sedLoop_path hpaths.1 (hjoin (List.cons_ne_nil _ _)) hfront, hcontent]
    rfl

end Streams

section Counts

variable {front front' : Str} {blocks blocks' : List (Str × Str)}

theorem eq_of_sum_eq {a b : List Nat} (hlen : a.length = b.length) {k : Nat} (h : ∀ j, j ≠ k → a[j]? = b[j]?)
    (hsum : a.sum = b.sum) : a = b := by
  induction a generalizing b k with
  | nil => exact (List.length_eq_zero_iff.mp hlen.symm).symm
  | cons m a ih =>
    obtain ⟨n, b, rfl⟩ := List.exists_cons_of_ne_nil (l := b) (by rintro rfl; cases hlen)
    rw [List.length_cons, List.length_cons, Nat.add_right_cancel_iff] at hlen
    rw [List.sum_cons, List.sum_cons] at hsum
    cases k with
    | zero =>
      obtain rfl : a = b := List.ext_getElem? fun j => by simpa using h (j + 1) (Nat.succ_ne_zero j)
      rw [Nat.add_right_cancel hsum]
    | succ k =>
      have hhead : m = n := by simpa using h 0 (Nat.succ_ne_zero k).symm
      rw [hhead, Nat.add_left_cancel_iff] at hsum
      rw [hhead, ih hlen (k := k) (fun j hj => by simpa using h (j + 1) (by omega)) hsum]

theorem normal_congr (hnames : blocks.map Prod.fst = blocks'.map Prod.fst)
    (hfront : important front = important front')
    (h : List.Forall₂ (fun e e' => SameLines e.2 e'.2) blocks blocks') :
    normal front blocks = normal front' blocks' := by
  induction h generalizing front front' with
  | nil => rw [normal, normal, hfront]
  | cons hsame _ ih =>
    rw [List.map_cons, List.map_cons, List.cons.injEq] at hnames
    rw [normal, normal, hfront, hnames.1, hsame.1, ih hnames.2 hsame.2]

end Counts

section Check

variable {t t' : Listing} {path : Str} {lines : Str → Prop} {closed : Bool}

theorem printed_path (hpath : path.head? = some '.') (t : Listing) :
    ∀ e ∈ printed path t, e.1.head? = some '.' := by
  have hbelow : ∀ name : Str, (path ++ '/' :: name).head? = some '.' := by
    intro name
    rw [List.head?_append, hpath]
    rfl
  induction t generalizing path with
  | nil => exact fun _ h => absurd h List.not_mem_nil
  | file name content rest ih =>
    intro e he
    rcases List.mem_append.mp he with he | he
    · split at he
      · rw [List.mem_singleton.mp he]
        exact hbelow name
      · cases he
    · exact ih hpath hbelow e he
  | dir name below rest ihb ih =>
    intro e he
    rw [printed, List.append_assoc] at he
    rcases List.mem_append.mp he with he | he
    · split at he
      · rw [List.mem_singleton.mp he]
        exact hbelow name
      · cases he
    · rcases List.mem_append.mp he with he | he
      · refine ihb (hbelow name) (fun lower => ?_) e he
        rw [List.head?_append, hbelow name]
        rfl
      · exact ih hpath hbelow e he

theorem Edited.names (h : Edited t t') (path : Str) :
    (printed path t).map Prod.fst = (printed path t').map Prod.fst := by
  induction h generalizing path with
  | nil => rfl
  | file name content content' h ih =>
    rw [printed, printed, List.map_append, List.map_append, ih]
    by_cases hshown : shown (path ++ '/' :: name) name = true
    · rw [if_pos hshown, if_pos hshown]
      rfl
    · rw [if_neg hshown, if_neg hshown]
  | dir name hb h ihb ih =>
    rw [printed, printed, List.map_append, List.map_append, List.map_append, List.map_append, ih, ihb]

theorem summed_eq (t : Listing) : summed t = sedLoop [] (stream ((['.'], []) :: read t)) := by
  rw [summed, find_eq_stream]
  rfl

/-- The files have no lines that are misread, and a path can follow each of them. -/
def Readable (t : Listing) : Prop :=
  (∀ e ∈ read t, (∀ line ∈ (cut [] e.2).1, ¬Misread line) ∧ ¬Misread (cut [] e.2).2) ∧
    ∀ e ∈ (read t).dropLast, Joinable (cut [] e.2).2

theorem plain_nil : ¬Misread [] ∧ Joinable [] := by
  refine ⟨fun h => ?_, fun _ => rfl⟩
  exact edit_ne_important h rfl

theorem Readable.summed (h : Readable t) : Chksum.summed t = normal [] ((['.'], []) :: read t) := by
  rw [summed_eq]
  refine sedLoop_stream ?_ plain_nil.1 (fun _ => plain_nil.2) ?_ ?_
  · exact List.forall_mem_cons.mpr ⟨rfl, printed_path rfl t⟩
  · exact List.forall_mem_cons.mpr ⟨⟨fun _ h => absurd h List.not_mem_nil, plain_nil.1⟩, h.1⟩
  · intro e he
    rcases List.eq_nil_or_concat (read t) with hnil | ⟨l, x, hl⟩
    · rw [hnil] at he
      cases he
    · rw [hl, List.concat_eq_append, ← List.cons_append, List.dropLast_concat] at he
      rcases List.mem_cons.mp he with rfl | he
      · exact plain_nil.2
      · refine h.2 e ?_
        rwa [hl, List.concat_eq_append, List.dropLast_concat]

theorem Edited.blocks (h : Edited t t') :
    ((['.'], []) :: read t).map Prod.fst = ((['.'], []) :: read t').map Prod.fst := by
  rw [List.map_cons, List.map_cons, read, read, h.names]

theorem Alike.summed (h : Alike t t') (hedited : Edited t t') (ht : Readable t) (ht' : Readable t') :
    Chksum.summed t' = Chksum.summed t := by
  rw [ht.summed, ht'.summed, normal_congr hedited.blocks rfl (.cons ⟨rfl, rfl⟩ h)]

end Check

section Samples

variable {lines : Str → Prop} {closed : Bool} {l content : Str} {t t' : Listing}

/-- A package with one file. -/
def one (content : Str) : Listing := .file ['a'] content .nil

theorem read_one (content : Str) : read (one content) = [(['.', '/', 'a'], content)] := rfl

theorem front_lines : Lines ".\n./a\n".toList := .inr ⟨".\n./a".toList, rfl⟩

theorem summed_one (content : Str) : summed (one content) = sed ".\n./a\n".toList ++ sed content := by
  rw [← sed_lines front_lines, summed_eq, read_one]
  simp [stream, sed]

theorem sed_ended (hl : '\n' ∉ l) : sed (l ++ ['\n']) = ended l := by
  rw [sed, sedLoop_line hl, List.nil_append]
  exact List.append_nil _

/-- Some sum tells two texts apart. -/
theorem summed_of_pkgchksum (h : ∀ md5sum, pkgchksum md5sum t' = pkgchksum md5sum t) :
    summed t' = summed t := by
  by_contra hne
  have hsum := h fun text => if text = summed t then ['0'] else ['1']
  rw [pkgchksum, pkgchksum, if_neg hne, if_pos rfl] at hsum
  cases hsum

theorem over_one (hl : '\n' ∉ l) (hline : lines l) :
    Over lines (one (l ++ ['\n'])) ∧ Over lines (one []) := by
  have hcut : cut [] (l ++ ['\n']) = ([l], []) := cut_line hl [] []
  rw [Over, Over, read_one, read_one, List.forall_mem_singleton, List.forall_mem_singleton]
  refine ⟨?_, fun _ h => absurd h List.not_mem_nil, fun h => absurd rfl h⟩
  rw [hcut, List.forall_mem_singleton]
  exact ⟨hline, fun h => absurd rfl h⟩

theorem ended_eq_nil : ended l = [] ↔ edit l = none := by
  rw [ended]
  cases edit l with
  | none => exact iff_of_true rfl rfl
  | some s => simp

/-- A line that is misread makes the difference in a file of its own. -/
theorem Meets.plain (h : Meets lines closed) (hline : lines l) (hl : '\n' ∉ l) : ¬Misread l := by
  intro hmisread
  have hcut : cut [] (l ++ ['\n']) = ([l], []) := cut_line hl [] []
  obtain ⟨hover, hover'⟩ := over_one hl hline
  obtain ⟨hsame, hother⟩ := h (one (l ++ ['\n'])) (one []) (.file ['a'] (l ++ ['\n']) [] .nil) hover hover'
    fun _ => ⟨fun _ h => absurd h List.not_mem_nil, fun _ h => absurd h List.not_mem_nil⟩
  have halike : Alike (one (l ++ ['\n'])) (one []) ↔ important l = none := by
    rw [Alike, read_one, read_one, List.forall₂_cons, and_iff_left List.Forall₂.nil, SameLines, kept, hcut]
    exact (and_iff_left rfl).trans <| List.filterMap_eq_nil_iff.trans List.forall_mem_singleton
  have hsummed : summed (one []) = summed (one (l ++ ['\n'])) ↔ edit l = none := by
    rw [summed_one, summed_one, sed_ended hl, List.append_right_inj, ← ended_eq_nil]
    exact eq_comm
  have hne := edit_ne_important hmisread
  by_cases himportant : important l = none
  · have hsum := summed_of_pkgchksum (hsame (halike.mpr himportant))
    exact hne ((hsummed.mp hsum).trans himportant.symm)
  · have hplace : InPlace (one (l ++ ['\n'])) (one []) := by
      refine ⟨0, fun j hj => ?_⟩
      obtain ⟨j, rfl⟩ := Nat.exists_eq_succ_of_ne_zero hj
      rfl
    have hsum := hother (fun h => himportant (halike.mp h)) hplace
    rw [Ne, hsummed, edit_eq] at hsum
    rw [edit_eq] at hne
    rw [important] at himportant hne
    split at hsum
    · exact hsum rfl
    · split at himportant
      · exact himportant rfl
      · rename_i hedit hun
        rw [if_neg hedit, if_neg hun] at hne
        exact hne rfl

end Samples

end T2SDE.ChksumLines
