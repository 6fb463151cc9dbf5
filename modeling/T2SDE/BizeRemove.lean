import T2SDE.Lib.Removal
import T2SDE.Lib.StableSort

namespace T2SDE.BizeRemove

open Text PathName FileTree StableSort

section Program

def blank (c : Char) : Bool := c == ' ' || c == '\t'

/-- A path from the root directory as it can stand in the lists. -/
structure Path where
  text : Str
  ne : text ≠ []
  head : ∀ c, text.head? = some c → blank c = false ∧ c ≠ '/'
  last : ∀ c, text.getLast? = some c → blank c = false
  plain : ∀ c ∈ text, c ≠ '\n' ∧ c ≠ '\\'
  /-- which `md5sum` would take for its input -/
  dash : text ≠ ['-']

def adm : Str := ['v', 'a', 'r', '/', 'a', 'd', 'm', '/']

def listFile (pkg : Str) : Str := adm ++ 'f' :: 'l' :: 'i' :: 's' :: 't' :: 's' :: '/' :: pkg

def md5File (pkg : Str) : Str := adm ++ 'm' :: 'd' :: '5' :: 's' :: 'u' :: 'm' :: 's' :: '/' :: pkg

def lstat (s : Store) (root : Loc) (path : Str) : Option Entry := (locate s.tree root path).bind s.entry

/-- A package with its lists in the tree below the root directory. -/
structure Input where
  store : Store
  root : Loc
  rootDir : store.entry root = some .dir
  /-- the sums of what is in the files -/
  md5 : Loc → Str
  pkg : Str
  pkg_word : pkg ≠ [] ∧ ∀ c ∈ pkg, blank c = false ∧ c ≠ '\n' ∧ c ≠ '\\'
  flist : List Path
  md5sums : List (Str × Path)
  listed : ∀ e ∈ md5sums, e.2 ∈ flist
  hasList : lstat store root (listFile pkg) = some .file
  hasMd5s : lstat store root (md5File pkg) = some .file

/-- `rm -f` -/
def rm (s : Store) (root : Loc) (path : Str) : Store := (locate s.tree root path).elim s s.unlink

def rmdir (s : Store) (root : Loc) (path : Str) : Store := (locate s.tree root path).elim s s.rmdir

/-- The file that `open` finds at a place, behind so many links at most. -/
def follow (s : Store) : Nat → Loc → Option Loc
  | n, loc =>
    match s.entry loc with
    | some .file => some loc
    | some (.link target) =>
      match n with
      | 0 => none
      | n + 1 => (locate s.tree loc.dropLast target).bind (follow s n)
    | _ => none

/-- How the file of an entry stands the test of `md5sum -c`. -/
def status (i : Input) (e : Str × Path) : Str :=
  match (locate i.store.tree i.root e.2.text).bind (follow i.store maxLinks) with
  | none => "FAILED open or read".toList
  | some loc => if i.md5 loc = e.1 then ['O', 'K'] else "FAILED".toList

def checkLine (i : Input) (e : Str × Path) : Str := e.2.text ++ ':' :: ' ' :: status i e

def strip (line : Str) : Str := (line.dropWhile blank).rdropWhile blank

/-- The text in front of the last colon with a blank, and behind it. -/
def cutLast : Str → Option (Str × Str)
  | [] => none
  | c :: s =>
    match cutLast s with
    | some (front, back) => some (c :: front, back)
    | none => if c = ':' ∧ s.head? = some ' ' then some ([], s.tail) else none

/-- The loop over the output of `md5sum`, which begins with `read line`. -/
def checkStep (i : Input) (s : Store) (line : Str) : Store :=
  let line := strip line
  let base := (cutLast line).elim line Prod.fst
  let stat := (cutLast line).elim line Prod.snd
  if base = [] ∨ stat = [] then s
  else if lstat s i.root base = some .file then if stat = ['O', 'K'] then rm s i.root base else s
  else s

/-- `read tag base` -/
def readLine (line : Str) : Str × Str :=
  let line := strip line
  (line.takeWhile (!blank ·), (line.dropWhile (!blank ·)).dropWhile blank)

/-- The body of the loop over the file list. -/
def listStep (i : Input) (s : Store) (line : Str) : Store :=
  let tag := (readLine line).1
  let base := (readLine line).2
  if tag ≠ i.pkg ++ [':'] then s
  else if base = [] then s
  else
    match lstat s i.root base with
    | some (.link _) => rm s i.root base
    | some .dir => rmdir s i.root base
    | some .file => if adm <+: base then rm s i.root base else s
    | none => rm s i.root base

def listLine (i : Input) (p : Path) : Str := i.pkg ++ ':' :: ' ' :: p.text

/-- The files that have been modified are kept, and nothing is a test. -/
def bizeRemove (i : Input) : Store :=
  if lstat i.store i.root (md5File i.pkg) ≠ some .file then i.store
  else
    let s := (i.md5sums.map (checkLine i)).foldl (checkStep i) i.store
    -- `sort` cannot open a list that is gone
    let list := if lstat s i.root (listFile i.pkg) = some .file then i.flist.map (listLine i) else []
    (list.insertionSort fun a b => LineLe b a).foldl (listStep i) s

end Program

section Purpose

/-- What is kept and what is gone, by the places that the paths name before. -/
structure Kept (i : Input) : Prop where
  below : ∀ loc, (bizeRemove i).entry loc = i.store.entry loc ∨ (bizeRemove i).entry loc = none
  files : ∀ p ∈ i.flist, ∀ loc, locate i.store.tree i.root p.text = some loc →
    i.store.entry loc = some .file →
    ¬adm <+: p.text →
    ((bizeRemove i).entry loc = some .file ↔ ∀ e ∈ i.md5sums, e.2.text = p.text → i.md5 loc ≠ e.1)
  links : ∀ p ∈ i.flist, ∀ loc, locate i.store.tree i.root p.text = some loc →
    ∀ target, i.store.entry loc = some (.link target) → (bizeRemove i).entry loc = none
  admFiles : ∀ p ∈ i.flist, ∀ loc, locate i.store.tree i.root p.text = some loc →
    i.store.entry loc = some .file →
    adm <+: p.text → (bizeRemove i).entry loc = none
  others : ∀ loc, (∀ p ∈ i.flist, locate i.store.tree i.root p.text ≠ some loc) →
    (bizeRemove i).entry loc = i.store.entry loc
  dirs : ∀ p ∈ i.flist, ∀ loc, locate i.store.tree i.root p.text = some loc → i.store.entry loc = some .dir →
    ((bizeRemove i).entry loc = none ↔ ∀ c, (bizeRemove i).entry (loc ++ [c]) = none)

/-- The paths are names between single slashes and lead through no link, and the sums have not the
file list. -/
structure Regular (i : Input) : Prop where
  single : ∀ p ∈ i.flist, p.text = ['/'].intercalate (components p.text)
  names : ∀ p ∈ i.flist, ∀ c ∈ components p.text, IsName c
  apart : ∀ p ∈ i.flist, ∀ front, front <+: components p.text → front ≠ components p.text →
    ∀ target, i.store.entry (i.root ++ front) ≠ some (.link target)
  own : ∀ e ∈ i.md5sums, locate i.store.tree i.root e.2.text ≠ locate i.store.tree i.root (listFile i.pkg)

end Purpose

section Texts

variable {i : Input} {p : Path} {s t : Str}

theorem strip_eq (hhead : ∀ c, s.head? = some c → blank c = false)
    (hlast : ∀ c, s.getLast? = some c → blank c = false) :
    strip s = s := by
  have hdrop : s.dropWhile blank = s := by
    cases s with
    | nil => rfl
    | cons c s => rw [List.dropWhile_cons, hhead c rfl, if_neg Bool.false_ne_true]
  rw [strip, hdrop, List.rdropWhile_eq_self_iff]
  intro hne
  rw [Bool.not_eq_true]
  exact hlast _ (List.getLast?_eq_some_getLast hne)

theorem cutLast_none (h : ¬[':', ' '] <:+: s) : cutLast s = none := by
  induction s with
  | nil => rfl
  | cons c s ih =>
    have hhere : ¬(c = ':' ∧ s.head? = some ' ') := by
      rintro ⟨rfl, hblank⟩
      obtain ⟨rest, rfl⟩ := List.head?_eq_some_iff.mp hblank
      exact h ⟨[], rest, rfl⟩
    rw [cutLast, ih fun hi => h (hi.trans (List.suffix_cons c s).isInfix)]
    exact if_neg hhere

/-- The last colon with a blank is found. -/
theorem cutLast_append (h : ¬[':', ' '] <:+: ' ' :: t) : cutLast (s ++ ':' :: ' ' :: t) = some (s, t) := by
  induction s with
  | nil =>
    rw [List.nil_append, cutLast, cutLast_none h]
    rfl
  | cons c s ih => rw [List.cons_append, cutLast, ih]

theorem readLine_listLine (i : Input) (p : Path) : readLine (listLine i p) = (i.pkg ++ [':'], p.text) := by
  obtain ⟨hpkg, hword⟩ := i.pkg_word
  obtain ⟨c, pkg, hc⟩ := List.exists_cons_of_ne_nil hpkg
  obtain ⟨d, text, hd⟩ := List.exists_cons_of_ne_nil p.ne
  have hstrip : strip (listLine i p) = listLine i p := by
    refine strip_eq (fun e he => ?_) fun e he => ?_
    · rw [listLine, hc] at he
      rw [← Option.some.inj he]
      exact (hword c (hc ▸ List.mem_cons_self)).1
    · have hlast : (listLine i p).getLast? = p.text.getLast? := by
        rw [listLine, hd]
        simp [List.getLast?_append, List.getLast?_cons]
      exact p.last e (hlast ▸ he)
  have htag : ∀ e ∈ i.pkg ++ [':'], (!blank e) = true := by
    intro e he
    rcases List.mem_append.mp he with he | he
    · rw [(hword e he).1]
      rfl
    · rw [List.mem_singleton.mp he]
      rfl
  have hline : listLine i p = (i.pkg ++ [':']) ++ ' ' :: p.text := by simp [listLine]
  have hbase : (' ' :: p.text).dropWhile blank = p.text := by
    rw [List.dropWhile_cons, if_pos (by rfl), hd, List.dropWhile_cons, (p.head d (by rw [hd]; rfl)).1,
      if_neg Bool.false_ne_true]
  rw [readLine, hstrip, hline, List.takeWhile_append_of_pos htag, List.dropWhile_append_of_pos htag,
    List.takeWhile_cons,
    if_neg (by decide), List.append_nil, List.dropWhile_cons, if_neg (by decide), hbase]

end Texts

section Steps

variable {i : Input} {p : Path} {s : Store} {e : Str × Path} {loc : Loc}

/-- What is left of the tree, with the root directory. -/
structure Below (i : Input) (s : Store) : Prop where
  entry : ∀ loc, s.entry loc = i.store.entry loc ∨ s.entry loc = none
  root : s.entry i.root = some .dir

def spot (i : Input) (p : Path) : Loc := i.root ++ components p.text

theorem components_ne (h : p.text = ['/'].intercalate (components p.text)) : components p.text ≠ [] := by
  intro hnil
  rw [hnil] at h
  exact p.ne h

theorem Regular.locate (h : Regular i) (hp : p ∈ i.flist) (hs : Below i s) :
    locate s.tree i.root p.text = if (s.entry (spot i p)).isSome then some (spot i p) else none := by
  refine locate_names hs.root (components_ne (h.single p hp)) (fun hslash => (p.head _ hslash).2 rfl)
    (h.names p hp) ?_
  intro front hfront hne target hlink
  rcases hs.entry (i.root ++ front) with heq | hnone
  · exact h.apart p hp front hfront hne target (heq ▸ hlink)
  · have hgone : s.tree.entry (i.root ++ front) = none := hnone
    rw [hgone] at hlink
    cases hlink

theorem Regular.lstat (h : Regular i) (hp : p ∈ i.flist) (hs : Below i s) :
    lstat s i.root p.text = s.entry (spot i p) := by
  rw [BizeRemove.lstat, h.locate hp hs]
  cases hentry : s.entry (spot i p) with
  | none => rfl
  | some e => simpa using hentry

theorem Regular.rm (h : Regular i) (hp : p ∈ i.flist) (hs : Below i s) (l : Loc) :
    (rm s i.root p.text).entry l = if l = spot i p ∧ s.entry (spot i p) ≠ some .dir then none
    else s.entry l := by
  rw [BizeRemove.rm, h.locate hp hs]
  cases hentry : s.entry (spot i p) with
  | none =>
    rw [if_neg (by simp), Option.elim_none]
    by_cases hl : l = spot i p
    · rw [hl, hentry]
      simp
    · rw [if_neg (by simp [hl])]
  | some e =>
    rw [if_pos (by rfl), Option.elim_some, Store.entry_unlink, hentry]

theorem spot_ne_root (h : Regular i) (hp : p ∈ i.flist) : spot i p ≠ i.root := by
  intro heq
  have hlen := congrArg List.length heq
  rw [spot, List.length_append] at hlen
  exact components_ne (h.single p hp) (List.length_eq_zero_iff.mp (by omega))

theorem Regular.rmdir (h : Regular i) (hp : p ∈ i.flist) (hs : Below i s) (l : Loc) :
    (rmdir s i.root p.text).entry l =
      if l = spot i p ∧ s.entry (spot i p) = some .dir ∧ s.isEmpty (spot i p) = true then none
      else s.entry l := by
  have hne : spot i p ≠ [] := by
    intro hnil
    exact components_ne (h.single p hp) (List.append_eq_nil_iff.mp hnil).2
  rw [BizeRemove.rmdir, h.locate hp hs]
  cases hentry : s.entry (spot i p) with
  | none =>
    rw [if_neg (by simp), Option.elim_none]
    simp
  | some e =>
    rw [if_pos (by rfl), Option.elim_some, Store.entry_rmdir, hentry]
    simp [hne]

theorem status_plain (i : Input) (e : Str × Path) : ¬[':', ' '] <:+: ' ' :: status i e ∧
    (∀ c, (status i e).getLast? = some c → blank c = false) ∧ status i e ≠ [] := by
  have hcases : status i e = ['O', 'K'] ∨ status i e = "FAILED".toList ∨
      status i e = "FAILED open or read".toList := by
    unfold status
    split
    · exact .inr (.inr rfl)
    · split
      · exact .inl rfl
      · exact .inr (.inl rfl)
  have hgood : ∀ stat : Str, ':' ∉ stat → stat.getLast?.any blank = false → stat ≠ [] →
      ¬[':', ' '] <:+: ' ' :: stat ∧ (∀ c, stat.getLast? = some c → blank c = false) ∧ stat ≠ [] := by
    intro stat hcolon hlast hne
    refine ⟨fun h => ?_, fun c hc => ?_, hne⟩
    · have hmem : ':' ∈ ' ' :: stat := h.subset List.mem_cons_self
      exact hcolon ((List.mem_cons.mp hmem).resolve_left (by decide))
    · rw [hc] at hlast
      exact hlast
  rcases hcases with h | h | h <;> rw [h]
  · exact hgood _ (by decide) rfl (by decide)
  · exact hgood _ (by decide) rfl (by decide)
  · exact hgood _ (by decide) rfl (by decide)

theorem checkStep_line (i : Input) (s : Store) (e : Str × Path) : checkStep i s (checkLine i e) =
    if lstat s i.root e.2.text = some .file then
      if status i e = ['O', 'K'] then BizeRemove.rm s i.root e.2.text else s
    else s := by
  obtain ⟨hcolon, hlast, hne⟩ := status_plain i e
  obtain ⟨d, text, hd⟩ := List.exists_cons_of_ne_nil e.2.ne
  obtain ⟨o, stat, ho⟩ := List.exists_cons_of_ne_nil hne
  have hstrip : strip (checkLine i e) = checkLine i e := by
    refine strip_eq (fun c hc => ?_) fun c hc => hlast c ?_
    · rw [checkLine, hd] at hc
      exact (e.2.head c (by rw [hd]; exact hc)).1
    · rw [← hc, checkLine, ho]
      simp [List.getLast?_append, List.getLast?_cons]
  rw [checkStep, hstrip, checkLine, cutLast_append hcolon]
  exact if_neg (not_or.mpr ⟨e.2.ne, hne⟩)

/-- What the loop over the sums does with an entry. -/
theorem checkStep_entry (h : Regular i) (he : e ∈ i.md5sums) (hs : Below i s) (l : Loc) :
    (checkStep i s (checkLine i e)).entry l =
      if l = spot i e.2 ∧ s.entry l = some .file ∧ i.md5 l = e.1 then none else s.entry l := by
  have hp := i.listed e he
  rw [checkStep_line, h.lstat hp hs]
  by_cases hfile : s.entry (spot i e.2) = some .file
  · have hstart : Below i i.store := ⟨fun _ => .inl rfl, i.rootDir⟩
    have hbefore : i.store.entry (spot i e.2) = some .file := by
      rcases hs.entry (spot i e.2) with heq | hnone
      · rw [← heq, hfile]
      · cases hnone.symm.trans hfile
    have hstatus : status i e = if i.md5 (spot i e.2) = e.1 then ['O', 'K'] else "FAILED".toList := by
      have hfollow : follow i.store maxLinks (spot i e.2) = some (spot i e.2) := by
        rw [maxLinks, follow, hbefore]
      rw [status, h.locate hp hstart, hbefore, if_pos (by rfl), Option.bind_some, hfollow]
    rw [if_pos hfile, hstatus]
    by_cases hsum : i.md5 (spot i e.2) = e.1
    · rw [if_pos hsum, if_pos rfl, h.rm hp hs, hfile]
      by_cases hl : l = spot i e.2
      · subst hl
        simp [hfile, hsum]
      · simp [hl]
    · rw [if_neg hsum, if_neg (by decide)]
      by_cases hl : l = spot i e.2
      · subst hl
        simp [hsum]
      · simp [hl]
  · rw [if_neg hfile]
    by_cases hl : l = spot i e.2
    · subst hl
      simp [hfile]
    · simp [hl]

/-- Whether the loop over the file list takes away what a path names. -/
def goes (s : Store) (loc : Loc) (path : Str) : Bool :=
  match s.entry loc with
  | some .dir => s.isEmpty loc
  | some .file => adm <+: path
  | _ => true

theorem listStep_entry (h : Regular i) (hp : p ∈ i.flist) (hs : Below i s) (l : Loc) :
    (listStep i s (listLine i p)).entry l =
      if l = spot i p ∧ goes s (spot i p) p.text = true then none else s.entry l := by
  rw [listStep, readLine_listLine]
  dsimp only
  rw [if_neg (by simp), if_neg p.ne, h.lstat hp hs]
  unfold goes
  cases hentry : s.entry (spot i p) with
  | none =>
    dsimp only
    rw [h.rm hp hs, hentry]
    simp
  | some e =>
    cases e with
    | link target =>
      dsimp only
      rw [h.rm hp hs, hentry]
      simp
    | dir =>
      dsimp only
      rw [h.rmdir hp hs, hentry]
      simp
    | file =>
      dsimp only
      by_cases hadm : adm <+: p.text
      · rw [if_pos hadm, h.rm hp hs, hentry]
        simp [hadm]
      · rw [if_neg hadm]
        simp [hadm]

end Steps

section Checks

variable {i : Input} {p q : Path} {s t : Store} {loc : Loc}

theorem below_step {P : Loc → Prop} [DecidablePred P] (hs : Below i s) (hroot : ¬P i.root)
    (h : ∀ l, t.entry l = if P l then none else s.entry l) : Below i t := by
  refine ⟨fun l => ?_, ?_⟩
  · rw [h l]
    split
    · exact .inr rfl
    · exact hs.entry l
  · rw [h, if_neg hroot, hs.root]

/-- The loop over the sums takes away just the files that pass the test. -/
theorem checks_entry (h : Regular i) {es : List (Str × Path)} (hes : ∀ e ∈ es, e ∈ i.md5sums) :
    Below i ((es.map (checkLine i)).foldl (checkStep i) i.store) ∧
    ∀ l, ((es.map (checkLine i)).foldl (checkStep i) i.store).entry l =
      if ∃ e ∈ es, l = spot i e.2 ∧ i.store.entry l = some .file ∧ i.md5 l = e.1 then none
      else i.store.entry l := by
  induction es using List.reverseRecOn with
  | nil => exact ⟨⟨fun _ => .inl rfl, i.rootDir⟩, fun l => by simp⟩
  | append_singleton es e ih =>
    obtain ⟨hbelow, hentry⟩ := ih fun x hx => hes x (List.mem_append_left _ hx)
    have he : e ∈ i.md5sums := hes e (by simp)
    rw [List.map_append, List.foldl_append, List.map_singleton, List.foldl_cons, List.foldl_nil]
    have hstep := checkStep_entry h he hbelow
    refine ⟨below_step hbelow (fun hroot => ?_) hstep, fun l => ?_⟩
    · exact spot_ne_root h (i.listed e he) hroot.1.symm
    · rw [hstep l]
      by_cases hbefore : ∃ e ∈ es, l = spot i e.2 ∧ i.store.entry l = some .file ∧ i.md5 l = e.1
      · have hnone : ((es.map (checkLine i)).foldl (checkStep i) i.store).entry l = none := by
          rw [hentry l, if_pos hbefore]
        obtain ⟨x, hx, hcond⟩ := hbefore
        have hlater : ∃ e' ∈ es ++ [e], l = spot i e'.2 ∧ i.store.entry l = some .file ∧ i.md5 l = e'.1 :=
          ⟨x, List.mem_append_left _ hx, hcond⟩
        rw [hnone, if_pos hlater]
        simp
      · rw [hentry l, if_neg hbefore]
        have hiff : (∃ e' ∈ es ++ [e], l = spot i e'.2 ∧ i.store.entry l = some .file ∧ i.md5 l = e'.1) ↔
            l = spot i e.2 ∧ i.store.entry l = some .file ∧ i.md5 l = e.1 := by
          constructor
          · rintro ⟨x, hx, hcond⟩
            rcases List.mem_append.mp hx with hx | hx
            · exact absurd ⟨x, hx, hcond⟩ hbefore
            · rw [List.mem_singleton.mp hx] at hcond
              exact hcond
          · exact fun hcond => ⟨e, by simp, hcond⟩
        simp only [hiff]

/-- The file list is still there for the second loop. -/
theorem list_kept (h : Regular i) :
    lstat ((i.md5sums.map (checkLine i)).foldl (checkStep i) i.store) i.root (listFile i.pkg) =
    some .file := by
  obtain ⟨-, hentry⟩ := checks_entry h fun e he => he
  have hstart : Below i i.store := ⟨fun _ => .inl rfl, i.rootDir⟩
  obtain ⟨loc, hloc, hfile⟩ := Option.bind_eq_some_iff.mp i.hasList
  have hstays : ((i.md5sums.map (checkLine i)).foldl (checkStep i) i.store).entry loc = some .file := by
    rw [hentry loc, if_neg, hfile]
    rintro ⟨e, he, rfl, -⟩
    refine h.own e he ?_
    rw [h.locate (i.listed e he) hstart, hfile, if_pos (by rfl), hloc]
  have hlocate := locate_files (t := i.store.tree) (fun l => ?_) hloc (by rw [← Store.entry, hstays]; rfl)
  · rw [lstat, hlocate, Option.bind_some, hstays]
  · have hl := hentry l
    split at hl
    next hgone =>
      obtain ⟨-, -, -, hfile', -⟩ := hgone
      exact .inr ⟨hfile', hl⟩
    next => exact .inl hl

end Checks

section Walk

variable {i : Input} {p q : Path} {s : Store} {l : List Path} {loc : Loc}

/-- The second loop over some paths. -/
def walkList (i : Input) (s : Store) (l : List Path) : Store :=
  l.foldl (fun s p => listStep i s (listLine i p)) s

theorem spot_inj (h : Regular i) (hp : p ∈ i.flist) (hq : q ∈ i.flist) (heq : spot i p = spot i q) :
    p.text = q.text := by
  rw [h.single p hp, h.single q hq, List.append_cancel_left heq]

theorem removes (h : Regular i) (hl : l ⊆ i.flist) : Removes (fun s p => listStep i s (listLine i p)) (spot i)
    (fun s p => goes s (spot i p) p.text) (Below i) l where
  entry _ hs _ hp loc := listStep_entry h (hl hp) hs loc
  inv _ hs _ hp :=
    below_step hs (fun hroot => spot_ne_root h (hl hp) hroot.1.symm) (listStep_entry h (hl hp) hs)

/-- A file outside of `var/adm` stays. -/
theorem walkList_file (h : Regular i) (hl : l ⊆ i.flist) (hs : Below i s) (hp : p ∈ i.flist)
    (hfile : s.entry (spot i p) = some .file) (hadm : ¬adm <+: p.text) :
    (walkList i s l).entry (spot i p) = some .file := by
  refine ((removes h hl).run_kept hs fun t _ heq x hx hspot => ?_).trans hfile
  rw [goes, ← hspot, heq, hfile, ← spot_inj h hp (hl hx) hspot]
  exact decide_eq_false hadm

/-- What is no directory and no file to be kept is gone behind its path. -/
theorem walkList_gone (h : Regular i) (hl : l ⊆ i.flist) (hs : Below i s) (hp : p ∈ l)
    (hentry : ∀ e, s.entry (spot i p) = some e → e ≠ .dir ∧ (e = .file → adm <+: p.text)) :
    (walkList i s l).entry (spot i p) = none := by
  obtain ⟨front, back, rfl⟩ := List.append_of_mem hp
  have hfront := removes h fun q hq => hl (List.mem_append_left (p :: back) hq)
  refine (removes h hl).run_gone hs ?_
  rw [goes]
  split
  next hdir => exact absurd rfl (hentry _ (hfront.run_some hs hdir)).1
  next hfile => exact decide_eq_true ((hentry _ (hfront.run_some hs hfile)).2 rfl)
  next => rfl

/-- What a directory has stands in front of it. -/
theorem child_before (h : Regular i) (hp : p ∈ i.flist) (hq : q ∈ i.flist) {c : Str}
    (heq : spot i p ++ [c] = spot i q) : textLe q.text p.text = false := by
  rw [spot, spot, List.append_assoc] at heq
  have hnames := List.append_cancel_left heq
  rw [h.single q hq, ← hnames, intercalate_concat _ (components_ne (h.single p hp)), ← h.single p hp]
  rw [← Bool.not_eq_true]
  intro hle
  have hshort := textLe_antisymm hle (textLe_isPrefix p.text _)
  have hlen := congrArg List.length hshort
  simp at hlen

/-- A directory is gone behind its path, if nothing is left in it in the end. -/
theorem walkList_dir (h : Regular i) (hl : l ⊆ i.flist) (hs : Below i s) (hp : p ∈ l)
    (hsorted : l.Pairwise fun a b => textLe b.text a.text = true)
    (hentry : ∀ e, s.entry (spot i p) = some e → e = .dir)
    (hempty : ∀ c, (walkList i s l).entry (spot i p ++ [c]) = none) :
    (walkList i s l).entry (spot i p) = none := by
  obtain ⟨front, back, rfl⟩ := List.append_of_mem hp
  have hfront := removes h fun q hq => hl (List.mem_append_left (p :: back) hq)
  have hfree : ∀ c, (walkList i s front).entry (spot i p ++ [c]) = none := by
    intro c
    refine ((removes h hl).run_turn hs fun q hq hchild => ?_).symm.trans (hempty c)
    have hbefore := child_before h (hl hp) (hl (List.mem_append_right front hq)) hchild
    have hbehind : textLe q.text p.text = true := by
      rcases List.mem_cons.mp hq with rfl | hq
      · exact textLe_refl _
      · exact (List.pairwise_cons.mp (List.pairwise_append.mp hsorted).2.1).1 q hq
    rw [hbehind] at hbefore
    cases hbefore
  refine (removes h hl).run_gone hs ?_
  rw [goes]
  split
  next => exact Store.isEmpty_iff.mpr hfree
  next hfile => cases hentry _ (hfront.run_some hs hfile)
  next => rfl

/-- The order of the file list behind `sort -r`. -/
def PathGe (p q : Path) : Prop := LineLe q.text p.text

instance : DecidableRel PathGe := fun p q => inferInstanceAs (Decidable (LineLe q.text p.text))

instance : Std.Total PathGe := ⟨fun p q => textLe_total q.text p.text⟩

instance : IsTrans Path PathGe := ⟨fun _ _ _ hpq hqr => textLe_trans hqr hpq⟩

/-- A removal is the loop over the sums, and then the loop over the sorted list. -/
theorem bizeRemove_eq (h : Regular i) : bizeRemove i =
    walkList i ((i.md5sums.map (checkLine i)).foldl (checkStep i) i.store) (i.flist.insertionSort PathGe) := by
  have hsort : (i.flist.map (listLine i)).insertionSort (fun a b => LineLe b a) =
      (i.flist.insertionSort PathGe).map (listLine i) := by
    refine (List.map_insertionSort PathGe (fun a b => LineLe b a) (listLine i) _ fun p _ q _ => ?_).symm
    have hline : ∀ p : Path, listLine i p = (i.pkg ++ [':', ' ']) ++ p.text := fun p => by simp [listLine]
    rw [PathGe, LineLe, LineLe, hline, hline, textLe_append_left]
  rw [bizeRemove, if_neg (not_not.mpr i.hasMd5s)]
  dsimp only
  rw [if_pos (list_kept h), hsort, List.foldl_map]
  rfl

theorem Regular.spot_of_locate (h : Regular i) (hp : p ∈ i.flist)
    (hloc : FileTree.locate i.store.tree i.root p.text = some loc) : loc = spot i p := by
  rw [h.locate hp ⟨fun _ => .inl rfl, i.rootDir⟩] at hloc
  split at hloc
  · exact (Option.some.inj hloc).symm
  · cases hloc

/-- What is modified stays, and of the rest of what is listed just the directories with something
left in them. -/
theorem kept_of_regular (h : Regular i) : Kept i := by
  obtain ⟨hbelow, hchecked⟩ := checks_entry h fun e he => he
  have hrun := bizeRemove_eq h
  have hl : i.flist.insertionSort PathGe ⊆ i.flist := fun p hp => (List.mem_insertionSort PathGe).mp hp
  have hwalk := removes h hl
  have hmem : ∀ p ∈ i.flist, p ∈ i.flist.insertionSort PathGe :=
    fun p hp => (List.mem_insertionSort PathGe).mpr hp
  have hafter : Below i (bizeRemove i) := hrun ▸ hwalk.run_inv hbelow
  refine ⟨hafter.entry, fun p hp loc hloc hfile hadm => ?_, fun p hp loc hloc target hlink => ?_,
    fun p hp loc hloc hfile hadm => ?_, fun loc hno => ?_, fun p hp loc hloc hdir => ?_⟩
  · obtain rfl := h.spot_of_locate hp hloc
    constructor
    · intro hstays e he htext hsum
      have hspot : spot i p = spot i e.2 := by rw [spot, spot, htext]
      have hnone := hwalk.run_none hbelow ((hchecked _).trans (if_pos ⟨e, he, hspot, hfile, hsum⟩))
      rw [hrun] at hstays
      cases hstays.symm.trans hnone
    · intro hsums
      have hleft : ((i.md5sums.map (checkLine i)).foldl (checkStep i) i.store).entry (spot i p) =
        some .file := by
        rw [hchecked, if_neg, hfile]
        rintro ⟨e, he, hspot, -, hsum⟩
        exact hsums e he (spot_inj h (i.listed e he) hp hspot.symm) hsum
      rw [hrun]
      exact walkList_file h hl hbelow hp hleft hadm
  · obtain rfl := h.spot_of_locate hp hloc
    rw [hrun]
    refine walkList_gone h hl hbelow (hmem p hp) fun e he => ?_
    rcases hbelow.entry (spot i p) with heq | hnone
    · rw [heq, hlink] at he
      obtain rfl := Option.some.inj he
      exact ⟨by simp, by simp⟩
    · cases hnone.symm.trans he
  · obtain rfl := h.spot_of_locate hp hloc
    rw [hrun]
    refine walkList_gone h hl hbelow (hmem p hp) fun e he => ?_
    rcases hbelow.entry (spot i p) with heq | hnone
    · rw [heq, hfile] at he
      obtain rfl := Option.some.inj he
      exact ⟨by simp, fun _ => hadm⟩
    · cases hnone.symm.trans he
  · by_cases hnone : i.store.entry loc = none
    · rcases hafter.entry loc with heq | hgone'
      · exact heq
      · rw [hgone', hnone]
    · have hfree : ∀ p ∈ i.flist, loc ≠ spot i p := by
        rintro p hp rfl
        refine hno p hp ?_
        rw [h.locate hp ⟨fun _ => .inl rfl, i.rootDir⟩, if_pos (Option.ne_none_iff_isSome.mp hnone)]
      rw [hrun]
      refine (hwalk.run_frame hbelow fun p hp => hfree p (hl hp)).trans ?_
      rw [hchecked, if_neg]
      rintro ⟨e, he, hspot, -⟩
      exact hfree e.2 (i.listed e he) hspot
  · obtain rfl := h.spot_of_locate hp hloc
    constructor
    · intro hnone c
      by_contra hchild
      have hparent := (bizeRemove i).tree.parent (spot i p) c (Option.ne_none_iff_isSome.mp hchild)
      cases hparent.symm.trans hnone
    · intro hempty
      rw [hrun] at hempty ⊢
      refine walkList_dir h hl hbelow (hmem p hp) (List.pairwise_insertionSort PathGe i.flist)
        (fun e he => ?_) hempty
      rcases hbelow.entry (spot i p) with heq | hnone
      · rw [heq, hdir] at he
        exact (Option.some.inj he).symm
      · cases hnone.symm.trans he

end Walk

section Samples

/-- Whether a text can be a path in the lists. -/
def isPath (text : Str) : Bool :=
  text != [] && !text.head?.any (fun c => blank c || c == '/') && !text.getLast?.any blank &&
    text.all (fun c => c != '\n' && c != '\\') && text != ['-']

theorem path_head {text : Str} (h : isPath text = true) (c : Char) (hc : text.head? = some c) :
    blank c = false ∧ c ≠ '/' := by
  simp only [isPath, Bool.and_eq_true, hc] at h
  simpa using h.1.1.1.2

theorem path_last {text : Str} (h : isPath text = true) (c : Char) (hc : text.getLast? = some c) :
    blank c = false := by
  simp only [isPath, Bool.and_eq_true, hc] at h
  simpa using h.1.1.2

theorem path_rest {text : Str} (h : isPath text = true) :
    text ≠ [] ∧ (∀ c ∈ text, c ≠ '\n' ∧ c ≠ '\\') ∧ text ≠ ['-'] := by
  simp only [isPath, Bool.and_eq_true, bne_iff_ne, List.all_eq_true] at h
  exact ⟨h.1.1.1.1, h.1.2, h.2⟩

def path (text : Str) (h : isPath text = true) : Path :=
  ⟨text, (path_rest h).1, path_head h, path_last h, (path_rest h).2.1, (path_rest h).2.2⟩

/-- The tree of a package `p` with its lists and some more. -/
def sampleTree (more : List (Loc × Entry)) : List (Loc × Entry) :=
  [([['v', 'a', 'r']], .dir), ([['v', 'a', 'r'], ['a', 'd', 'm']], .dir),
    ([['v', 'a', 'r'], ['a', 'd', 'm'], ['f', 'l', 'i', 's', 't', 's']], .dir),
    ([['v', 'a', 'r'], ['a', 'd', 'm'], ['m', 'd', '5', 's', 'u', 'm', 's']], .dir),
    ([['v', 'a', 'r'], ['a', 'd', 'm'], ['f', 'l', 'i', 's', 't', 's'], ['p']], .file),
    ([['v', 'a', 'r'], ['a', 'd', 'm'], ['m', 'd', '5', 's', 'u', 'm', 's'], ['p']], .file)] ++ more

def sampleInput (more : List (Loc × Entry)) (hmore : consistent (sampleTree more) = true)
    (flist : List Path) (md5sums : List (Str × Path)) (listed : ∀ e ∈ md5sums, e.2 ∈ flist)
    (hlists : lstat (.ofList (sampleTree more) hmore) [] (listFile ['p']) = some .file ∧
      lstat (.ofList (sampleTree more) hmore) [] (md5File ['p']) = some .file) : Input where
  store := .ofList (sampleTree more) hmore
  root := []
  rootDir := rfl
  md5 _ := ['0']
  pkg := ['p']
  pkg_word := ⟨List.cons_ne_nil _ _, by rw [List.forall_mem_singleton]; decide⟩
  flist := flist
  md5sums := md5sums
  listed := listed
  hasList := hlists.1
  hasMd5s := hlists.2

/-- A file that is modified, and one that is not. -/
def plainTree : List (Loc × Entry) := [([['d']], .dir), ([['d'], ['f']], .file), ([['d'], ['g']], .file)]

/-- A directory, and a link to it. -/
def linkTree : List (Loc × Entry) := [([['d']], .dir), ([['d'], ['x']], .link ['y']), ([['a']], .link ['d'])]

theorem plainTree_consistent : consistent (sampleTree plainTree) = true := by decide +kernel

theorem linkTree_consistent : consistent (sampleTree linkTree) = true := by decide +kernel

theorem plainTree_lists :
    lstat (.ofList (sampleTree plainTree) plainTree_consistent) [] (listFile ['p']) = some .file ∧
      lstat (.ofList (sampleTree plainTree) plainTree_consistent) [] (md5File ['p']) = some .file := by
  decide +kernel

theorem linkTree_lists :
    lstat (.ofList (sampleTree linkTree) linkTree_consistent) [] (listFile ['p']) = some .file ∧
      lstat (.ofList (sampleTree linkTree) linkTree_consistent) [] (md5File ['p']) = some .file := by
  decide +kernel

def dPath : Path := path ['d'] rfl

def fPath : Path := path ['d', '/', 'f'] rfl

def gPath : Path := path ['d', '/', 'g'] rfl

def aPath : Path := path ['a'] rfl

def listPath : Path := path (listFile ['p']) rfl

def plainInput : Input := sampleInput plainTree plainTree_consistent [dPath, fPath, gPath]
  [(['1'], fPath), (['0'], gPath)] (by simp) plainTree_lists

theorem plainInput_regular : Regular plainInput where
  single := List.forall_mem_cons.mpr ⟨by decide +kernel, List.forall_mem_cons.mpr ⟨by decide +kernel,
    List.forall_mem_cons.mpr ⟨by decide +kernel, fun _ h => nomatch h⟩⟩⟩
  names p hp c hc := by
    have hall : plainInput.flist.all (fun p => (components p.text).all fun c => decide (IsName c)) =
      true := rfl
    exact of_decide_eq_true (List.all_eq_true.mp (List.all_eq_true.mp hall p hp) c hc)
  apart := by
    intro p _ front _ _ target hlink
    rcases entry_of_lookup hlink with h | ⟨q, hq, h⟩
    · cases h
    · have hnone : (sampleTree plainTree).all (fun q => q.2 == .dir || q.2 == .file) = true := by decide
      have hentry := List.all_eq_true.mp hnone q hq
      rw [h] at hentry
      exact absurd hentry (by simp)
  own := List.forall_mem_cons.mpr ⟨by decide +kernel, List.forall_mem_cons.mpr ⟨by decide +kernel,
    fun _ h => nomatch h⟩⟩

/-- Just the file that is not modified is gone. -/
theorem kept_plain : Kept plainInput := kept_of_regular plainInput_regular

/-- A list with a path through the link. -/
def linkInput : Input := sampleInput linkTree linkTree_consistent [dPath, aPath, path ['a', '/', 'x'] rfl] []
  (by simp) linkTree_lists

/-- A list with a path that is not in its normal form. -/
def dotInput : Input :=
  sampleInput linkTree linkTree_consistent [dPath, path ['.', '/', 'd', '/', 'x'] rfl] []
  (by simp) linkTree_lists

/-- Sums with the file list itself. -/
def ownInput : Input := sampleInput linkTree linkTree_consistent [aPath, listPath] [(['0'], listPath)]
  (by simp) linkTree_lists

/-- An empty directory stays where another path leads into it, and all of the rest where the file list is gone
before it is read. -/
theorem not_kept : ¬Kept linkInput ∧ ¬Kept dotInput ∧ ¬Kept ownInput := by
  refine ⟨fun h => ?_, fun h => ?_, fun h => ?_⟩
  · have hdir := h.dirs dPath (.head _) [['d']] (by decide +kernel) (by decide +kernel)
    have hstays : (bizeRemove linkInput).entry [['d']] = some .dir := by decide +kernel
    have hempty : (bizeRemove linkInput).isEmpty [['d']] = true := by decide +kernel
    cases hstays.symm.trans (hdir.mpr (Store.isEmpty_iff.mp hempty))
  · have hdir := h.dirs dPath (.head _) [['d']] (by decide +kernel) (by decide +kernel)
    have hstays : (bizeRemove dotInput).entry [['d']] = some .dir := by decide +kernel
    have hempty : (bizeRemove dotInput).isEmpty [['d']] = true := by decide +kernel
    cases hstays.symm.trans (hdir.mpr (Store.isEmpty_iff.mp hempty))
  · have hlink := h.links aPath (.head _) [['a']] (by decide +kernel) ['d'] (by decide +kernel)
    have hstays : (bizeRemove ownInput).entry [['a']] = some (.link ['d']) := by decide +kernel
    cases hstays.symm.trans hlink

end Samples

end T2SDE.BizeRemove
