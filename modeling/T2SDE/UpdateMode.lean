import Mathlib.Data.List.Nodup
import Mathlib.Logic.Function.Basic
import T2SDE.Lib.ShellFields

namespace T2SDE.UpdateMode

open Text ShellFields

/-- The regular files: their contents, by their absolute names. -/
abbrev Files := Str → Option Str

section Program

/-- A line of var/adm/md5sums; the names are relative, and none of them is taken for an option. -/
structure Sum where
  sum : Str
  name : Str
  name_file : name ≠ [] ∧ name.head? ≠ some '/' ∧ name.head? ≠ some '-'

/-- What Build-Pkg works with: the root and its own directory (each without a slash at its end), pathname
expansion in a state of the files, and what `mv`, `cmp` and `rm` do with a name that stands for several. -/
structure Site where
  xroot : Str
  cwd : Str
  glob : Files → Str → List Str
  md5 : Str → Str
  several : List Str → Files → Files

def ifs : Str := [' ', '\t', '\n']

def place (dir fn : Str) : Str := dir ++ '/' :: fn

/-- A file's name with `.new` behind it. -/
def new (fn : Str) : Str := fn ++ ['.', 'n', 'e', 'w']

/-- A name as `md5sum` prints it. -/
def printed (name : Str) : Str :=
  if '\\' ∈ name ∨ '\n' ∈ name then
    '\\' :: name.flatMap fun c => if c = '\\' then ['\\', '\\'] else if c = '\n' then ['\\', 'n'] else [c]
  else name

/-- The line of `md5sum --check` for a file; its warnings have other ends. -/
def checkLine (s : Site) (fs : Files) (e : Sum) : Str :=
  match fs (place s.xroot e.name) with
  | none => printed e.name ++ ": FAILED open or read".toList
  | some c => printed e.name ++ (if s.md5 c = e.sum then ": OK".toList else ": FAILED".toList)

/-- backup_files.txt: `grep ': FAILED$' | cut -f1 -d:` -/
def backupFiles (s : Site) (fs : Files) (sums : List Sum) : List Str :=
  ((sums.map (checkLine s fs)).filter (": FAILED".toList).isSuffixOf).map (·.takeWhile (· != ':'))

def archive (s : Site) (fs : Files) (names : List Str) : List (Str × Str) :=
  names.filterMap fun fn => (fs (place s.xroot fn)).map fun c => (fn, c)

def rename (fs : Files) (a b : Str) : Files := fun p => if p = b then fs a else if p = a then none else fs p

/-- `[ -f $xroot/$fn ] && mv $xroot/$fn $xroot/$fn.new`; the test fails on several words. -/
def moveAside (s : Site) (fs : Files) (fn : Str) : Files :=
  match splitGlob ifs (s.glob fs) (place s.xroot fn) with
  | [a] =>
    if (fs a).isSome then
      match splitGlob ifs (s.glob fs) (place s.xroot (new fn)) with
      | [b] => rename fs a b
      | bs => s.several (a :: bs) fs
    else fs
  | _ => fs

def extract (s : Site) (fs : Files) (e : Str × Str) : Files :=
  Function.update fs (place s.xroot e.1) (some e.2)

/-- `cmp -s $fn $fn.new && rm -f $fn.new` -/
def compareNew (s : Site) (fs : Files) (fn : Str) : Files :=
  match splitGlob ifs (s.glob fs) fn, splitGlob ifs (s.glob fs) (new fn) with
  | [a], [b] =>
    if (fs (place s.cwd a)).isSome ∧ fs (place s.cwd a) = fs (place s.cwd b) then
      Function.update fs (place s.cwd b) none
    else fs
  | as, bs => s.several (as ++ bs) fs

/-- The files when Build-Pkg has finished, from those before it and those that the build leaves. -/
def update (s : Site) (sums : List Sum) (before built : Files) : Files :=
  let names := backupFiles s before sums
  if names = [] then built
  else names.foldl (compareNew s) ((archive s before names).foldl (extract s)
    (names.foldl (moveAside s) built))

end Program

section Purpose

/-- A file that is no longer as it was installed. -/
def Changed (s : Site) (before : Files) (e : Sum) : Prop :=
  ∃ c, before (place s.xroot e.name) = some c ∧ s.md5 c ≠ e.sum

/-- An installed package with local changes. -/
structure Installed where
  site : Site
  sums : List Sum
  before : Files
  xroot_word : ∀ c ∈ site.xroot, c ∉ ifs
  names_nodup : (sums.map Sum.name).Nodup
  changed_plain : ∀ e ∈ sums, Changed site before e → ∀ c ∈ e.name, c ∉ [':', ' ', '\t', '\n', '\\']

/-- The names of the changed files. -/
def Installed.Local (p : Installed) (fn : Str) : Prop := ∃ e ∈ p.sums, Changed p.site p.before e ∧ e.name = fn

/-- Changed files are kept, and what the build has for them is beside them if it is something else. -/
def Keeps (p : Installed) (built : Files) : Prop :=
  let final := update p.site p.sums p.before built
  ∀ fn, p.Local fn →
    final (place p.site.xroot fn) = p.before (place p.site.xroot fn) ∧
      ∀ c, final (place p.site.xroot (new fn)) = some c ↔
        built (place p.site.xroot fn) = some c ∧ p.before (place p.site.xroot fn) ≠ some c

/-- As patterns the names find nothing but themselves. -/
def Alone (p : Installed) : Prop := ∀ fn, p.Local fn → ∀ fs,
  (∀ name ∈ [fn, new fn], p.site.glob fs name = [name] ∧
    p.site.glob fs (place p.site.xroot name) = [place p.site.xroot name])

/-- No changed file is the `.new` of one, in the root or below the directory of Build-Pkg. -/
def Apart (p : Installed) : Prop := ∀ fn gn, p.Local fn → p.Local gn →
  ∀ dir ∈ [p.site.xroot, p.site.cwd], place dir (new fn) ≠ place p.site.xroot gn

/-- The comparison is made with the file itself. -/
def Seen (p : Installed) (fn : Str) : Prop :=
  ∃ gn, p.Local gn ∧ place p.site.cwd gn = place p.site.xroot fn

/-- What the build may do to the changed files. -/
def Careful (p : Installed) (built : Files) : Prop := ∀ fn, p.Local fn →
  let file := place p.site.xroot fn
  (built file = p.before file → Seen p fn) ∧
    (built file = none → built (new file) = none ∨ built (new file) = p.before file ∧ Seen p fn)

end Purpose

section Names

variable {s : Site} {before : Files} {sums : List Sum} {e : Sum}

theorem printed_plain {name : Str} (h : ∀ c ∈ name, c ∉ [':', ' ', '\t', '\n', '\\']) :
    printed name = name := by
  refine if_neg ?_
  rintro (hmem | hmem)
  · exact h _ hmem (by simp)
  · exact h _ hmem (by simp)

theorem checkLine_failed : ": FAILED".toList.isSuffixOf (checkLine s before e) = true ↔
    Changed s before e := by
  rw [List.isSuffixOf_iff_suffix, checkLine, Changed]
  have hlast : ∀ {a b : Str} {c d : Char}, a ++ [c] <:+ b ++ [d] → c = d := by
    intro a b c d h
    obtain ⟨t, ht⟩ := h
    rw [← List.append_assoc] at ht
    exact List.singleton_inj.mp (List.append_inj' ht rfl).2
  cases hfile : before (place s.xroot e.name) with
  | none =>
    simp only [reduceCtorEq, false_and, exists_false, iff_false]
    intro h
    have hfailed : ": FAILED".toList = ": FAILE".toList ++ ['D'] := rfl
    have hread : ": FAILED open or read".toList = ": FAILED open or rea".toList ++ ['d'] := rfl
    rw [hfailed, hread, ← List.append_assoc] at h
    exact absurd (hlast h) (by decide)
  | some c =>
    simp only [Option.some.injEq, exists_eq_left']
    split_ifs with hsum
    · simp only [hsum, ne_eq, not_true_eq_false, iff_false]
      intro h
      have hfailed : ": FAILED".toList = ": FAILE".toList ++ ['D'] := rfl
      have hok : ": OK".toList = ": O".toList ++ ['K'] := rfl
      rw [hfailed, hok, ← List.append_assoc] at h
      exact absurd (hlast h) (by decide)
    · exact ⟨fun _ => hsum, fun _ => List.suffix_append _ _⟩

theorem checkLine_name (h : ∀ c ∈ e.name, c ∉ [':', ' ', '\t', '\n', '\\']) :
    (checkLine s before e).takeWhile (· != ':') = e.name := by
  have hfree : ∀ c ∈ e.name, (c != ':') = true := fun c hc => by
    simpa using fun heq : c = ':' => h c hc (by simp [heq])
  have hcut : ∀ rest : Str, (e.name ++ ':' :: rest).takeWhile (· != ':') = e.name := by
    intro rest
    rw [List.takeWhile_append_of_pos hfree, List.takeWhile_cons_of_neg (by decide), List.append_nil]
  rw [checkLine, printed_plain h]
  cases before (place s.xroot e.name) with
  | none => exact hcut _
  | some c =>
    dsimp only
    split_ifs
    · exact hcut _
    · exact hcut _

theorem new_injective : Function.Injective new := fun _ _ h => List.append_cancel_right h

theorem place_injective (dir : Str) : Function.Injective (place dir) :=
  fun _ _ h => (List.cons.inj (List.append_cancel_left h)).2

theorem place_new (dir fn : Str) : place dir (new fn) = new (place dir fn) := by simp [place, new]

theorem new_ne (p : Str) : new p ≠ p := fun h => by simp [new] at h

variable {p : Installed}

/-- The list file holds the names of the changed files, each once. -/
theorem backupFiles_names (p : Installed) :
    (∀ fn, fn ∈ backupFiles p.site p.before p.sums ↔ p.Local fn) ∧
      (backupFiles p.site p.before p.sums).Nodup := by
  have hnames : backupFiles p.site p.before p.sums = (p.sums.filter fun e =>
      ": FAILED".toList.isSuffixOf (checkLine p.site p.before e)).map Sum.name := by
    rw [backupFiles, List.filter_map, List.map_map]
    refine List.map_congr_left fun e he => ?_
    obtain ⟨hmem, hfailed⟩ := List.mem_filter.mp he
    exact checkLine_name (p.changed_plain e hmem (checkLine_failed.mp hfailed))
  rw [hnames]
  constructor
  · intro fn
    rw [List.mem_map]
    constructor
    · rintro ⟨e, he, rfl⟩
      obtain ⟨hmem, hfailed⟩ := List.mem_filter.mp he
      exact ⟨e, hmem, checkLine_failed.mp hfailed, rfl⟩
    · rintro ⟨e, hmem, hchanged, rfl⟩
      exact ⟨e, List.mem_filter.mpr ⟨hmem, checkLine_failed.mpr hchanged⟩, rfl⟩
  · exact p.names_nodup.sublist (List.filter_sublist.map _)

end Names

section Steps

/-- A file is moved aside. -/
def aside (fs : Files) (a : Str) : Files := if (fs a).isSome then rename fs a (new a) else fs

/-- A file is dropped that is the same as the one that it is the `.new` of. -/
def drop (fs : Files) (a : Str) : Files :=
  if (fs a).isSome ∧ fs a = fs (new a) then Function.update fs (new a) none else fs

variable {fs before : Files} {a b q : Str} {ps qs : List Str}

theorem aside_other (h : q ≠ a) (hnew : q ≠ new a) : aside fs a q = fs q := by
  unfold aside rename
  split_ifs
  · exact (if_neg hnew).trans (if_neg h)
  · rfl

theorem aside_self : aside fs a a = none := by
  unfold aside rename
  split_ifs with hsome
  · simp [(new_ne a).symm]
  · exact Option.not_isSome_iff_eq_none.mp hsome

theorem aside_new : aside fs a (new a) = (fs a).or (fs (new a)) := by
  unfold aside rename
  split_ifs with hsome
  · obtain ⟨c, hc⟩ := Option.isSome_iff_exists.mp hsome
    simp [hc]
  · rw [Option.not_isSome_iff_eq_none.mp hsome, Option.none_or]

theorem foldl_aside_other (h : q ∉ ps) (hnew : ∀ b ∈ ps, q ≠ new b) : ps.foldl aside fs q = fs q := by
  induction ps generalizing fs with
  | nil => rfl
  | cons b ps ih =>
    rw [List.foldl_cons, ih (fun hq => h (List.mem_cons_of_mem b hq))
      fun x hx => hnew x (List.mem_cons_of_mem b hx)]
    exact aside_other (fun hq => h (hq ▸ List.mem_cons_self)) (hnew b List.mem_cons_self)

/-- All files are moved aside. -/
theorem foldl_aside (hnodup : ps.Nodup) (hapart : ∀ x ∈ ps, ∀ y ∈ ps, new x ≠ y) (ha : a ∈ ps)
    (fs : Files) : ps.foldl aside fs a = none ∧ ps.foldl aside fs (new a) = (fs a).or (fs (new a)) := by
  induction ps generalizing fs with
  | nil => cases ha
  | cons b ps ih =>
    obtain ⟨hb, hnodup⟩ := List.nodup_cons.mp hnodup
    rw [List.foldl_cons]
    rcases List.mem_cons.mp ha with rfl | ha
    · have hself : ∀ x ∈ ps, a ≠ new x :=
        fun x hx => (hapart x (List.mem_cons_of_mem a hx) a List.mem_cons_self).symm
      have hnew : new a ∉ ps := fun hmem => hapart a List.mem_cons_self _ (List.mem_cons_of_mem a hmem) rfl
      rw [foldl_aside_other hb hself, aside_self,
        foldl_aside_other hnew fun x hx h => hb (new_injective h ▸ hx), aside_new]
      exact ⟨rfl, rfl⟩
    · have hab : a ≠ b := fun h => hb (h ▸ ha)
      have habn : a ≠ new b := (hapart b List.mem_cons_self a (List.mem_cons_of_mem b ha)).symm
      have hnb : new a ≠ b := hapart a (List.mem_cons_of_mem b ha) b List.mem_cons_self
      obtain ⟨hself, hnew⟩ := ih hnodup (fun x hx y hy =>
        hapart x (List.mem_cons_of_mem b hx) y (List.mem_cons_of_mem b hy)) ha (aside fs b)
      rw [hself, hnew, aside_other hab habn, aside_other hnb fun h => hab (new_injective h)]
      exact ⟨rfl, rfl⟩

theorem foldl_update_other (h : q ∉ ps) :
    ps.foldl (fun fs x => Function.update fs x (before x)) fs q = fs q := by
  induction ps generalizing fs with
  | nil => rfl
  | cons b ps ih =>
    rw [List.foldl_cons, ih fun hq => h (List.mem_cons_of_mem b hq),
      Function.update_of_ne fun hq : q = b => h (hq ▸ List.mem_cons_self)]

/-- The archive is unpacked: its files are as they were. -/
theorem foldl_update (h : q ∈ ps) (before fs : Files) :
    ps.foldl (fun fs x => Function.update fs x (before x)) fs q = before q := by
  induction ps generalizing fs with
  | nil => cases h
  | cons b ps ih =>
    rw [List.foldl_cons]
    by_cases hq : q ∈ ps
    · exact ih hq _
    · obtain rfl := (List.mem_cons.mp h).resolve_right hq
      rw [foldl_update_other hq, Function.update_self]

theorem drop_other (h : q ≠ new a) : drop fs a q = fs q := by
  unfold drop
  split_ifs
  · rw [Function.update_of_ne h]
  · rfl

theorem foldl_drop_other (h : ∀ b ∈ qs, q ≠ new b) : qs.foldl drop fs q = fs q := by
  induction qs generalizing fs with
  | nil => rfl
  | cons b qs ih =>
    rw [List.foldl_cons, ih fun x hx => h x (List.mem_cons_of_mem b hx), drop_other (h b List.mem_cons_self)]

/-- A file is dropped if the file itself is compared, and is the same. -/
theorem foldl_drop (hapart : ∀ b ∈ qs, new b ≠ a) (hsome : (fs a).isSome) :
    qs.foldl drop fs (new a) = if a ∈ qs ∧ fs a = fs (new a) then none else fs (new a) := by
  induction qs generalizing fs with
  | nil => simp
  | cons b qs ih =>
    have hrest := fun x hx => hapart x (List.mem_cons_of_mem b hx)
    have hself : drop fs b a = fs a := drop_other (hapart b List.mem_cons_self).symm
    rw [List.foldl_cons, ih hrest (hself ▸ hsome), hself]
    by_cases hab : a = b
    · subst hab
      by_cases hsame : fs a = fs (new a)
      · have hgone : drop fs a (new a) = none := by rw [drop, if_pos ⟨hsome, hsame⟩, Function.update_self]
        rw [hgone, if_pos (⟨List.mem_cons_self, hsame⟩ : a ∈ a :: qs ∧ fs a = fs (new a))]
        exact ite_self none
      · have hkept : drop fs a = fs := if_neg fun h => hsame h.2
        rw [hkept, if_neg fun h => hsame h.2, if_neg fun h => hsame h.2]
    · have hnew : drop fs b (new a) = fs (new a) := drop_other fun h => hab (new_injective h)
      rw [hnew]
      simp only [List.mem_cons, hab, false_or]

end Steps

section Updates

variable {p : Installed} {built fs : Files} {names : List Str} {fn : Str}

theorem local_word (h : p.Local fn) : ∀ name ∈ [fn, new fn],
    (name ≠ [] ∧ ∀ c ∈ name, c ∉ ifs) ∧ ∀ c ∈ place p.site.xroot name, c ∉ ifs := by
  obtain ⟨e, he, hchanged, rfl⟩ := h
  have hname : ∀ c ∈ e.name, c ∉ ifs := by
    intro c hc hifs
    refine p.changed_plain e he hchanged c hc ?_
    simp only [ifs, List.mem_cons, List.not_mem_nil, or_false] at hifs ⊢
    tauto
  have hboth : ∀ name ∈ [e.name, new e.name], name ≠ [] ∧ ∀ c ∈ name, c ∉ ifs := by
    intro name hn
    simp only [List.mem_cons, List.not_mem_nil, or_false] at hn
    rcases hn with rfl | rfl
    · exact ⟨e.name_file.1, hname⟩
    · refine ⟨List.append_ne_nil_of_right_ne_nil _ (List.cons_ne_nil _ _), fun c hc => ?_⟩
      rcases List.mem_append.mp hc with hc | hc
      · exact hname c hc
      · exact not_mem_of_all rfl c hc
  intro name hn
  refine ⟨hboth name hn, fun c hc => ?_⟩
  rcases List.mem_append.mp hc with hc | hc
  · exact p.xroot_word c hc
  · rcases List.mem_cons.mp hc with rfl | hc
    · decide
    · exact (hboth name hn).2 c hc

theorem moveAside_eq (halone : Alone p) (h : p.Local fn) (fs : Files) :
    moveAside p.site fs fn = aside fs (place p.site.xroot fn) := by
  have hword : ∀ name ∈ [fn, new fn],
      splitGlob ifs (p.site.glob fs) (place p.site.xroot name) = [place p.site.xroot name] := by
    intro name hn
    have hne : place p.site.xroot name ≠ [] := List.append_ne_nil_of_right_ne_nil _ (List.cons_ne_nil _ _)
    exact splitGlob_self hne (local_word h name hn).2 (halone fn h fs name hn).2
  rw [moveAside, hword fn (by simp), aside, ← place_new]
  simp only [hword (new fn) (by simp)]

theorem compareNew_eq (halone : Alone p) (h : p.Local fn) (fs : Files) :
    compareNew p.site fs fn = drop fs (place p.site.cwd fn) := by
  have hword : ∀ name ∈ [fn, new fn], splitGlob ifs (p.site.glob fs) name = [name] := by
    intro name hn
    obtain ⟨hne, hs⟩ := (local_word h name hn).1
    exact splitGlob_self hne hs (halone fn h fs name hn).1
  rw [compareNew, hword fn (by simp), hword (new fn) (by simp), drop, ← place_new]

theorem foldl_congr_local {f g : Files → Str → Files} (hnames : ∀ fn ∈ names, p.Local fn)
    (h : ∀ fn, p.Local fn → ∀ fs, f fs fn = g fs fn) : names.foldl f fs = names.foldl g fs := by
  induction names generalizing fs with
  | nil => rfl
  | cons fn names ih =>
    rw [List.foldl_cons, List.foldl_cons, h fn (hnames fn List.mem_cons_self),
      ih fun x hx => hnames x (List.mem_cons_of_mem fn hx)]

theorem foldl_extract (hnames : ∀ fn ∈ names, p.Local fn) :
    (archive p.site p.before names).foldl (extract p.site) fs =
      (names.map (place p.site.xroot)).foldl (fun fs x => Function.update fs x (p.before x)) fs := by
  induction names generalizing fs with
  | nil => rfl
  | cons fn names ih =>
    obtain ⟨e, -, ⟨c, hc, -⟩, rfl⟩ := hnames fn List.mem_cons_self
    have hhead : archive p.site p.before (e.name :: names) =
      (e.name, c) :: archive p.site p.before names := by
      rw [archive, List.filterMap_cons, hc]
      rfl
    rw [hhead, List.map_cons, List.foldl_cons, List.foldl_cons, extract, hc,
      ih fun x hx => hnames x (List.mem_cons_of_mem e.name hx)]

/-- A changed file and the file beside it when Build-Pkg has finished. -/
theorem update_local (halone : Alone p) (hapart : Apart p) (built : Files) (h : p.Local fn) :
    let file := place p.site.xroot fn
    let left := (built file).or (built (new file))
    update p.site p.sums p.before built file = p.before file ∧
      (Seen p fn ∧ p.before file = left → update p.site p.sums p.before built (new file) = none) ∧
      (¬(Seen p fn ∧ p.before file = left) → update p.site p.sums p.before built (new file) = left) := by
  obtain ⟨hmem, hnodup⟩ := backupFiles_names p
  generalize hlist : backupFiles p.site p.before p.sums = names at hmem hnodup
  have hlocal : ∀ fn ∈ names, p.Local fn := fun fn hfn => (hmem fn).mp hfn
  have hne : names ≠ [] := List.ne_nil_of_mem ((hmem fn).mpr h)
  intro file left
  -- the three loops as loops over the files
  have hupdate : update p.site p.sums p.before built = (names.map (place p.site.cwd)).foldl drop
      ((names.map (place p.site.xroot)).foldl (fun fs x => Function.update fs x (p.before x))
        ((names.map (place p.site.xroot)).foldl aside built)) := by
    rw [update, hlist]
    simp only [if_neg hne]
    rw [foldl_congr_local hlocal fun fn h fs => compareNew_eq halone h fs, foldl_extract hlocal,
      foldl_congr_local hlocal fun fn h fs => moveAside_eq halone h fs]
    simp only [List.foldl_map]
  have hfile : file ∈ names.map (place p.site.xroot) := List.mem_map_of_mem ((hmem fn).mpr h)
  have hroot : ∀ x ∈ names.map (place p.site.xroot), ∀ y ∈ names.map (place p.site.xroot), new x ≠ y := by
    intro x hx y hy
    obtain ⟨gn, hgn, rfl⟩ := List.mem_map.mp hx
    obtain ⟨hn, hhn, rfl⟩ := List.mem_map.mp hy
    rw [← place_new]
    exact hapart gn hn (hlocal gn hgn) (hlocal hn hhn) _ (by simp)
  have hcwd : ∀ b ∈ names.map (place p.site.cwd), new b ≠ file := by
    intro b hb
    obtain ⟨gn, hgn, rfl⟩ := List.mem_map.mp hb
    rw [← place_new]
    exact hapart gn fn (hlocal gn hgn) h _ (by simp)
  have hnew : new file ∉ names.map (place p.site.xroot) := fun hx => hroot file hfile _ hx rfl
  have hfiles : (names.map (place p.site.xroot)).Nodup := hnodup.map (place_injective _)
  have hseen : file ∈ names.map (place p.site.cwd) ↔ Seen p fn := by
    rw [List.mem_map, Seen]
    exact exists_congr fun gn => and_congr (hmem gn) Iff.rfl
  obtain ⟨e, -, ⟨c, hc, -⟩, rfl⟩ := h
  have hsome : (p.before file).isSome := by rw [hc]; rfl
  have hmoved := (foldl_aside hfiles hroot hfile built).2
  rw [hupdate, foldl_drop_other fun b hb => (hcwd b hb).symm, foldl_update hfile]
  have hold := foldl_update hfile p.before ((names.map (place p.site.xroot)).foldl aside built)
  rw [foldl_drop hcwd (by rw [hold]; exact hsome), hold, foldl_update_other hnew, hmoved]
  exact ⟨rfl, fun h => if_pos ⟨hseen.mpr h.1, h.2⟩, fun h => if_neg fun hn => h ⟨hseen.mp hn.1, hn.2⟩⟩

end Updates

/-- Local changes are kept, and what the build leaves for them is beside them, if the build is careful. -/
theorem keeps_iff (p : Installed) (built : Files) (halone : Alone p) (hapart : Apart p) :
    Keeps p built ↔ Careful p built := by
  refine forall₂_congr fun fn h => ?_
  obtain ⟨hfile, hgone, hleft⟩ := update_local halone hapart built h
  rw [place_new, and_iff_right hfile]
  obtain ⟨former, hformer⟩ : ∃ c, p.before (place p.site.xroot fn) = some c := by
    obtain ⟨e, -, ⟨c, hc, -⟩, rfl⟩ := h
    exact ⟨c, hc⟩
  dsimp only
  rw [hformer] at hgone hleft ⊢
  by_cases hseen : Seen p fn ∧
      some former = (built (place p.site.xroot fn)).or (built (new (place p.site.xroot fn)))
  · rw [hgone hseen]
    obtain ⟨hseen, hsame⟩ := hseen
    cases hbuilt : built (place p.site.xroot fn) with
    | none =>
      rw [hbuilt, Option.none_or] at hsame
      simp [hseen, ← hsame]
    | some c =>
      rw [hbuilt, Option.some_or] at hsame
      simp [hseen, hsame]
  · rw [hleft hseen]
    cases hbuilt : built (place p.site.xroot fn) with
    | none =>
      rw [hbuilt, Option.none_or] at hseen
      have hother : ¬(built (new (place p.site.xroot fn)) = some former ∧ Seen p fn) :=
        fun h => hseen ⟨h.2, h.1.symm⟩
      simp [hother, Option.eq_none_iff_forall_ne_some]
    | some c =>
      rw [hbuilt, Option.some_or] at hseen
      have hother : c = former → ¬Seen p fn := fun h hs => hseen ⟨hs, congrArg some h.symm⟩
      simp only [Option.some_or, Option.some.injEq, reduceCtorEq, false_implies, and_true]
      constructor
      · intro h hc
        exact absurd (congrArg some hc.symm) ((h c).mp rfl).2
      · intro h x
        refine ⟨fun hx => ⟨hx, fun hsame => ?_⟩, And.left⟩
        have hc : c = former := hx.trans (Option.some.inj hsame).symm
        exact hother hc (h hc)

section Sample

def sampleMd5 (c : Str) : Str :=
  if c = ['a'] then "0cc175b9c0f1b6a831c399e269772661".toList else "92eb5ffee6ae2fec3ad71c777531578f".toList

/-- A system whose root is `/`, rebuilt from /src. -/
def sampleSite : Site where
  xroot := []
  cwd := "/src".toList
  glob := fun _ s => [s]
  md5 := sampleMd5
  several := fun _ fs => fs

theorem sample_name : ['x'] ≠ [] ∧ ['x'].head? ≠ some '/' ∧ ['x'].head? ≠ some '-' := by decide

def sampleSum : Sum := ⟨"0cc175b9c0f1b6a831c399e269772661".toList, ['x'], sample_name⟩

/-- The one file of the package has been changed from `a` to `b`. -/
def sampleBefore : Files := fun p => if p = ['/', 'x'] then some ['b'] else none

theorem sample_xroot : ∀ c ∈ sampleSite.xroot, c ∉ ifs := fun _ hc => absurd hc List.not_mem_nil

theorem sample_nodup : ([sampleSum].map Sum.name).Nodup := List.nodup_singleton ['x']

theorem sample_plain : ∀ e ∈ [sampleSum], Changed sampleSite sampleBefore e →
    ∀ c ∈ e.name, c ∉ [':', ' ', '\t', '\n', '\\'] := by
  intro e he _
  rw [List.mem_singleton.mp he]
  exact not_mem_of_all rfl

def sample : Installed := ⟨sampleSite, [sampleSum], sampleBefore, sample_xroot, sample_nodup, sample_plain⟩

theorem sample_local {fn : Str} (h : sample.Local fn) : fn = ['x'] := by
  obtain ⟨e, he, -, rfl⟩ := h
  rw [List.mem_singleton.mp he]
  rfl

theorem sample_changed : sample.Local ['x'] :=
  ⟨sampleSum, List.mem_singleton.mpr rfl, ⟨['b'], by decide +kernel, by decide +kernel⟩, rfl⟩

theorem sample_apart : Apart sample := by
  intro fn gn hfn hgn dir hdir
  rw [sample_local hfn, sample_local hgn]
  simp only [List.mem_cons, List.not_mem_nil, or_false] at hdir
  rcases hdir with rfl | rfl
  · decide +kernel
  · decide +kernel

end Sample

theorem keeps_sample : Keeps sample fun p => if p = ['/', 'x'] then some ['c'] else none := by
  refine (keeps_iff sample _ (fun _ _ _ _ _ => ⟨rfl, rfl⟩) sample_apart).mpr fun fn hfn => ?_
  rw [sample_local hfn]
  exact ⟨fun h => absurd h (by decide +kernel), fun h => absurd h (by decide +kernel)⟩

/-- A file that the build leaves alone has a copy beside it. -/
theorem kept_file_copied : ¬Keeps sample sampleBefore := by
  intro h
  have hcopy := ((h ['x'] sample_changed).2 ['b']).mp (by decide +kernel)
  exact hcopy.2 (by decide +kernel)

end T2SDE.UpdateMode
