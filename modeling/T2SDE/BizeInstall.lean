import T2SDE.BizeRemove

namespace T2SDE.BizeRemove

open Text PathName FileTree StableSort

section Install

/-- The text in front of the last dash with a digit behind it. -/
def cutVersion : Str → Option Str
  | [] => none
  | c :: s =>
    match cutVersion s with
    | some front => some (c :: front)
    | none => if c = '-' ∧ s.head?.any Char.isDigit then some [] else none

def tarBz2 : Str := ".tar.bz2".toList

/-- The package name that `bize_install` takes from the name of an archive, if it installs it. -/
def packageName (arch : Str) : Option Str :=
  if tarBz2 <:+ arch then
    let front := arch.take (arch.length - tarBz2.length)
    let pkg := ((cutVersion front).getD front).rtakeWhile (· != '/')
    if pkg = [] then none else some pkg
  else none

/-- What an archive has for a path, with the sum of what is in it if it is a file. -/
structure Member where
  path : Path
  entry : Entry
  sum : Str

/-- An archive of a package, with its lists among the files. The paths are names between single slashes. -/
structure Archive where
  pkg : Str
  pkg_word : pkg ≠ [] ∧ ∀ c ∈ pkg, blank c = false ∧ c ≠ '\n' ∧ c ≠ '\\'
  members : List Member
  single : ∀ m ∈ members, m.path.text = ['/'].intercalate (components m.path.text)
  names : ∀ m ∈ members, ∀ c ∈ components m.path.text, IsName c
  list : ∃ m ∈ members, m.path.text = listFile pkg ∧ m.entry = .file
  md5s : ∃ m ∈ members, m.path.text = md5File pkg ∧ m.entry = .file

/-- The file list of a package: all its paths. -/
def Archive.flist (a : Archive) : List Path := a.members.map Member.path

/-- Its sums: those of the files outside of `var/adm`. -/
def Archive.md5sums (a : Archive) : List (Str × Path) :=
  a.members.filterMap fun m => if m.entry = .file ∧ ¬adm <+: m.path.text then some (m.sum, m.path) else none

/-- A file tree with the sums of what is in the files. -/
structure System where
  store : Store
  md5 : Loc → Str

def Member.spot (m : Member) (root : Loc) : Loc := root ++ components m.path.text

/-- What `tar` with the option `k` leaves: what was there before is kept. -/
structure Extracted (a : Archive) (root : Loc) (before after : System) : Prop where
  member : ∀ m ∈ a.members, after.store.entry (m.spot root) =
    if before.store.entry (m.spot root) = none then some m.entry else before.store.entry (m.spot root)
  sum : ∀ m ∈ a.members, m.entry = .file → before.store.entry (m.spot root) = none → after.md5 (m.spot root) = m.sum
  other : ∀ loc, (∀ m ∈ a.members, m.spot root ≠ loc) → after.store.entry loc = before.store.entry loc

/-- `bize_install` with an archive of a package that is not installed. -/
structure Installs (arch : Str) (a : Archive) (root : Loc) (before after : System) : Prop where
  name : packageName arch = some a.pkg
  missing : lstat before.store root (listFile a.pkg) ≠ some .file
  rootDir : before.store.entry root = some .dir
  extracted : Extracted a root before after

/-- Nothing is in the way of an archive but directories where it has directories itself. -/
def Fresh (a : Archive) (root : Loc) (before : System) : Prop :=
  ∀ m ∈ a.members, before.store.entry (m.spot root) = none ∨
    m.entry = .dir ∧ before.store.entry (m.spot root) = some .dir

end Install

section Facts

variable {a : Archive} {arch : Str} {root loc : Loc} {before after : System} {m : Member}

theorem Installs.entry (h : Installs arch a root before after) (hfresh : Fresh a root before) (hm : m ∈ a.members) :
    after.store.entry (m.spot root) = some m.entry := by
  rw [h.extracted.member m hm]
  rcases hfresh m hm with hnone | ⟨hdir, hbefore⟩
  · rw [if_pos hnone]
  · rw [hbefore, hdir]
    rfl

theorem Installs.rootDir_after (h : Installs arch a root before after) : after.store.entry root = some .dir := by
  have hother : after.store.entry root = before.store.entry root := by
    refine h.extracted.other root fun m hm heq => ?_
    have hlength := congrArg List.length heq
    rw [Member.spot, List.length_append] at hlength
    have hne : components m.path.text = [] := List.length_eq_zero_iff.mp (by omega)
    have htext := a.single m hm
    rw [hne] at htext
    exact m.path.ne htext
  rw [hother, h.rootDir]

/-- A member is found by its path. -/
theorem Installs.lstat (h : Installs arch a root before after) (hfresh : Fresh a root before) (hm : m ∈ a.members) :
    locate after.store.tree root m.path.text = some (m.spot root) ∧
      BizeRemove.lstat after.store root m.path.text = some m.entry := by
  have hentry := h.entry hfresh hm
  have hsome : (after.store.tree.entry (root ++ components m.path.text)).isSome := by
    have hplace : after.store.tree.entry (root ++ components m.path.text) = some m.entry := hentry
    rw [hplace]
    rfl
  have hne : components m.path.text ≠ [] := by
    intro hnil
    have htext := a.single m hm
    rw [hnil] at htext
    exact m.path.ne htext
  have hlocate := locate_place h.rootDir_after hne (fun hslash => (m.path.head _ hslash).2 rfl) (a.names m hm) hsome
  refine ⟨hlocate, ?_⟩
  rw [BizeRemove.lstat, hlocate, Option.bind_some]
  exact hentry

/-- The package as `bize -r` finds it. -/
def installed (a : Archive) (root : Loc) (after : System) (hroot : after.store.entry root = some .dir)
    (hlist : lstat after.store root (listFile a.pkg) = some .file)
    (hmd5s : lstat after.store root (md5File a.pkg) = some .file) : Input where
  store := after.store
  root := root
  rootDir := hroot
  md5 := after.md5
  pkg := a.pkg
  pkg_word := a.pkg_word
  flist := a.flist
  md5sums := a.md5sums
  listed := by
    intro e he
    obtain ⟨m, hm, heq⟩ := List.mem_filterMap.mp he
    split at heq
    · rw [← Option.some.inj heq]
      exact List.mem_map_of_mem hm
    · cases heq
  hasList := hlist
  hasMd5s := hmd5s

theorem Installs.hasList (h : Installs arch a root before after) (hfresh : Fresh a root before) :
    BizeRemove.lstat after.store root (listFile a.pkg) = some .file := by
  obtain ⟨m, hm, htext, hfile⟩ := a.list
  rw [← htext, (h.lstat hfresh hm).2, hfile]

theorem Installs.hasMd5s (h : Installs arch a root before after) (hfresh : Fresh a root before) :
    BizeRemove.lstat after.store root (md5File a.pkg) = some .file := by
  obtain ⟨m, hm, htext, hfile⟩ := a.md5s
  rw [← htext, (h.lstat hfresh hm).2, hfile]

def Installs.input (h : Installs arch a root before after) (hfresh : Fresh a root before) : Input :=
  installed a root after h.rootDir_after (h.hasList hfresh) (h.hasMd5s hfresh)

theorem Installs.regular (h : Installs arch a root before after) (hfresh : Fresh a root before) :
    Regular (h.input hfresh) where
  single := List.forall_mem_map.mpr a.single
  names := List.forall_mem_map.mpr a.names
  apart := by
    refine List.forall_mem_map.mpr fun m hm front hfront hne target hlink => ?_
    obtain ⟨rest, hrest⟩ := hfront
    have hrest_ne : rest ≠ [] := by
      rintro rfl
      exact hne (by rw [← hrest, List.append_nil])
    have hsome : (after.store.tree.entry ((root ++ front) ++ rest)).isSome := by
      have hentry : after.store.tree.entry (m.spot root) = some m.entry := h.entry hfresh hm
      rw [Member.spot, ← hrest, ← List.append_assoc] at hentry
      rw [hentry]
      rfl
    cases hlink.symm.trans (after.store.tree.above_dir hrest_ne hsome)
  own := by
    intro e he heq
    obtain ⟨m, hm, hcut⟩ := List.mem_filterMap.mp he
    obtain ⟨n, hn, htext, -⟩ := a.list
    split at hcut
    next hfile =>
      rw [← Option.some.inj hcut] at heq
      change locate after.store.tree root m.path.text = locate after.store.tree root (listFile a.pkg) at heq
      rw [← htext, (h.lstat hfresh hm).1, (h.lstat hfresh hn).1] at heq
      have hcomponents := List.append_cancel_left (Option.some.inj heq)
      have hsame : m.path.text = listFile a.pkg := by
        rw [a.single m hm, hcomponents, ← a.single n hn, htext]
      exact hfile.2 (hsame ▸ List.prefix_append _ _)
    next => cases hcut

/-- Of what the package lists no file and no link is left. -/
theorem Installs.gone (h : Installs arch a root before after) (hfresh : Fresh a root before) (hm : m ∈ a.members)
    (hdir : m.entry ≠ .dir) : (bizeRemove (h.input hfresh)).entry (m.spot root) = none := by
  have hregular := h.regular hfresh
  obtain ⟨hbelow, hchecked⟩ := checks_entry hregular fun e he => he
  have hl : (h.input hfresh).flist.insertionSort PathGe ⊆ (h.input hfresh).flist :=
    fun p hp => (List.mem_insertionSort PathGe).mp hp
  have hentry : (h.input hfresh).store.entry (m.spot root) = some m.entry := h.entry hfresh hm
  have hpath : m.path ∈ (h.input hfresh).flist := List.mem_map_of_mem hm
  rw [bizeRemove_eq hregular]
  by_cases hfile : m.entry = .file ∧ ¬adm <+: m.path.text
  · refine (removes hregular hl).run_none hbelow ((hchecked _).trans (if_pos ?_))
    refine ⟨(m.sum, m.path), List.mem_filterMap.mpr ⟨m, hm, if_pos hfile⟩, rfl, hentry.trans (by rw [hfile.1]), ?_⟩
    refine h.extracted.sum m hm hfile.1 ((hfresh m hm).resolve_right fun hbefore => ?_)
    exact hdir hbefore.1
  · refine walkList_gone hregular hl hbelow ((List.mem_insertionSort PathGe).mpr hpath) fun e he => ?_
    rcases hbelow.entry (m.spot root) with heq | hnone
    · have hsame : e = m.entry := Option.some.inj (he.symm.trans (heq.trans hentry))
      rw [hsame]
      exact ⟨hdir, fun hkind => Classical.byContradiction fun hadm => hfile ⟨hkind, hadm⟩⟩
    · cases hnone.symm.trans he

/-- What the package does not list is as it was. -/
theorem Installs.kept (h : Installs arch a root before after) (hfresh : Fresh a root before)
    (hloc : ∀ m ∈ a.members, m.spot root ≠ loc) :
    (bizeRemove (h.input hfresh)).entry loc = before.store.entry loc := by
  have hregular := h.regular hfresh
  obtain ⟨hbelow, hchecked⟩ := checks_entry hregular fun e he => he
  have hl : (h.input hfresh).flist.insertionSort PathGe ⊆ (h.input hfresh).flist :=
    fun p hp => (List.mem_insertionSort PathGe).mp hp
  have hfree : ∀ p ∈ (h.input hfresh).flist, loc ≠ spot (h.input hfresh) p :=
    List.forall_mem_map.mpr fun m hm heq => hloc m hm heq.symm
  rw [bizeRemove_eq hregular]
  refine ((removes hregular hl).run_frame hbelow fun p hp => hfree p (hl hp)).trans ?_
  rw [hchecked, if_neg]
  · exact h.extracted.other loc hloc
  · rintro ⟨e, he, hspot, -⟩
    exact hfree e.2 ((h.input hfresh).listed e he) hspot

/-- A directory of the package is gone, if nothing is left in it. -/
theorem Installs.emptied (h : Installs arch a root before after) (hfresh : Fresh a root before) (hm : m ∈ a.members)
    (hdir : m.entry = .dir) (hempty : ∀ c, (bizeRemove (h.input hfresh)).entry (m.spot root ++ [c]) = none) :
    (bizeRemove (h.input hfresh)).entry (m.spot root) = none := by
  have hregular := h.regular hfresh
  obtain ⟨hbelow, -⟩ := checks_entry hregular fun e he => he
  have hl : (h.input hfresh).flist.insertionSort PathGe ⊆ (h.input hfresh).flist :=
    fun p hp => (List.mem_insertionSort PathGe).mp hp
  have hentry : (h.input hfresh).store.entry (m.spot root) = some m.entry := h.entry hfresh hm
  have hpath : m.path ∈ (h.input hfresh).flist := List.mem_map_of_mem hm
  rw [bizeRemove_eq hregular] at hempty ⊢
  refine walkList_dir hregular hl hbelow ((List.mem_insertionSort PathGe).mpr hpath)
    (List.pairwise_insertionSort PathGe _) (fun e he => ?_) hempty
  rcases hbelow.entry (m.spot root) with heq | hnone
  · rw [← hdir]
    exact Option.some.inj (he.symm.trans (heq.trans hentry))
  · cases hnone.symm.trans he

end Facts

section Results

variable {a : Archive} {arch : Str} {root loc : Loc} {before after : System}

/-- Below each place something is left if and only if something was there that the package does not list. -/
theorem Installs.left_iff (h : Installs arch a root before after) (hfresh : Fresh a root before) (loc : Loc) :
    (bizeRemove (h.input hfresh)).entry loc ≠ none ↔
      ∃ rest, before.store.entry (loc ++ rest) ≠ none ∧ ∀ m ∈ a.members, m.spot root ≠ loc ++ rest := by
  constructor
  · revert loc
    refine (bizeRemove (h.input hfresh)).children_first (fun loc hnone hsome => absurd hnone hsome) ?_
    intro loc ih hsome
    by_cases hlisted : ∃ m ∈ a.members, m.spot root = loc
    · obtain ⟨m, hm, rfl⟩ := hlisted
      by_cases hdir : m.entry = .dir
      · by_contra hnothing
        refine hsome (h.emptied hfresh hm hdir fun c => Classical.byContradiction fun hc => hnothing ?_)
        obtain ⟨rest, hrest⟩ := ih c hc
        rw [List.append_assoc] at hrest
        exact ⟨_, hrest⟩
      · exact absurd (h.gone hfresh hm hdir) hsome
    · have hfree : ∀ m ∈ a.members, m.spot root ≠ loc := fun m hm heq => hlisted ⟨m, hm, heq⟩
      refine ⟨[], ?_, ?_⟩
      · rwa [List.append_nil, ← h.kept hfresh hfree]
      · rwa [List.append_nil]
  · rintro ⟨rest, hsome, hfree⟩
    rw [← h.kept hfresh hfree] at hsome
    by_cases hrest : rest = []
    · rwa [hrest, List.append_nil] at hsome
    · have hdir := (bizeRemove (h.input hfresh)).tree.above_dir hrest (Option.ne_none_iff_isSome.mp hsome)
      exact fun hnone => absurd (hdir.symm.trans hnone) (by simp)

/-- A tree with a file that belongs to no package. -/
def oldPlaces : List (Loc × Entry) := [([['v', 'a', 'r']], .dir), ([['e']], .dir), ([['e'], ['x']], .file)]

theorem oldPlaces_consistent : consistent oldPlaces = true := by decide +kernel

def sampleBefore : System := ⟨.ofList oldPlaces oldPlaces_consistent, fun _ => ['0']⟩

def member (text : Str) (h : isPath text = true) (entry : Entry) : Member := ⟨path text h, entry, ['0']⟩

end Results

end T2SDE.BizeRemove
