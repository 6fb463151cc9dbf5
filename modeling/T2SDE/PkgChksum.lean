import T2SDE.Lib.Text

namespace T2SDE.Chksum

open Text

section Functions

/-- The entries of a directory in the order in which they are read. Of a file it has what `cat` prints. -/
inductive Listing
  | nil
  | file (name content : Str) (rest : Listing)
  | dir (name : Str) (below rest : Listing)

/-- `! -path '*/.*' ! -name '*.cache'` -/
def shown (path name : Str) : Bool := ¬['/', '.'] <:+: path ∧ ¬".cache".toList <:+ name

/-- `-print -exec cat {} \;` for what is below a path. -/
def find (path : Str) : Listing → Str
  | .nil => []
  | .file name content rest =>
    (if shown (path ++ '/' :: name) name then path ++ '/' :: name ++ '\n' :: content else []) ++
    find path rest
  | .dir name below rest =>
    (if shown (path ++ '/' :: name) name then path ++ '/' :: name ++ ['\n'] else []) ++
      find (path ++ '/' :: name) below ++ find path rest

/-- The tests of the `sed` program that delete a line as it is read. -/
def deleted (line : Str) : Bool :=
  (line.dropWhile (· == ' ')).head? == some '#' ||
  "[COPY]".toList.isPrefixOf line ||
  "[CV".toList.isPrefixOf line && ((line.drop 3).dropWhile (· == '-')).head? == some ']' ||
  line.head? == some '[' && line.tail.head?.any (fun c => "T,I,U,A,M,L,S,C".toList.contains c) &&
    line.tail.tail.head? == some ']'

/-- `s/[\t ]*//g` -/
def strip (line : Str) : Str := line.filter fun c => !(c == '\t' || c == ' ')

/-- What is left of a line, if it is printed. -/
def edit (line : Str) : Option Str :=
  if deleted line then none
  else if strip line = [] then none
  else some (strip line)

/-- `sed`, with what is read so far of a line. A last line without its newline is printed without. -/
def sedLoop (line : Str) : Str → Str
  | [] => (edit line).getD []
  | c :: s => if c = '\n' then (edit line).elim [] (· ++ ['\n']) ++ sedLoop [] s else sedLoop (line ++ [c]) s

def sed (s : Str) : Str := sedLoop [] s

/-- What `md5sum` reads for the files of a package. -/
def summed (confdir : Listing) : Str := sed (".".toList ++ '\n' :: find ".".toList confdir)

def pkgchksum (md5sum : Str → Str) (confdir : Listing) : Str := (md5sum (summed confdir)).takeWhile (· != ' ')

/-- The test of `add_if_updated`. -/
def newSourceChecksum (ignoreChksum : Bool) (oCk nCk : Str) : Bool := !ignoreChksum && oCk != nCk

/-- The loop for `-newdelete` and `-newremove`: the packages whose logs are removed. -/
def newdelete (chksum : Str → Str) : List (Str × Str) → List Str
  | [] => []
  | (pkg, cksum1) :: registered =>
    if cksum1 ≠ chksum pkg then pkg :: newdelete chksum registered else newdelete chksum registered

end Functions

section Order

inductive Item
  | file (name content : Str)
  | dir (name : Str) (below : Listing)

def push : Item → Listing → Listing
  | .file name content, rest => .file name content rest
  | .dir name below, rest => .dir name below rest

/-- The same names and contents, in another order. -/
inductive Same : Listing → Listing → Prop
  | nil : Same .nil .nil
  | file {r r' : Listing} (name content : Str) (h : Same r r') :
  Same (.file name content r) (.file name content r')
  | dir {b b' r r' : Listing} (name : Str) (hb : Same b b') (h : Same r r') :
  Same (.dir name b r) (.dir name b' r')
  | swap (a b : Item) (r : Listing) : Same (push a (push b r)) (push b (push a r))
  | trans {r s t : Listing} (h : Same r s) (h' : Same s t) : Same r t

/-- How many entries of a directory print something. -/
def visible (path : Str) : Listing → Nat
  | .nil => 0
  | .file name _ rest => (if shown (path ++ '/' :: name) name then 1 else 0) + visible path rest
  | .dir name below rest =>
    (if shown (path ++ '/' :: name) name ∨ 0 < visible (path ++ '/' :: name) below then 1 else 0) +
    visible path rest

/-- At most one entry prints something, in the directory and in all below it. -/
def NarrowBelow (path : Str) : Listing → Prop
  | .nil => True
  | .file _ _ rest => NarrowBelow path rest
  | .dir name below rest =>
    (visible (path ++ '/' :: name) below ≤ 1 ∧ NarrowBelow (path ++ '/' :: name) below) ∧
    NarrowBelow path rest

def NarrowAt (path : Str) (t : Listing) : Prop := visible path t ≤ 1 ∧ NarrowBelow path t

def Narrow (confdir : Listing) : Prop := NarrowAt ".".toList confdir

variable {path : Str} {t t' : Listing} {a : Item}

/-- What an entry prints. -/
def Item.text (path : Str) : Item → Str
  | .file name content => if shown (path ++ '/' :: name) name then path ++ '/' :: name ++ '\n' :: content
  else []
  | .dir name below =>
    (if shown (path ++ '/' :: name) name then path ++ '/' :: name ++ ['\n'] else []) ++
    find (path ++ '/' :: name) below

theorem find_push (path : Str) (a : Item) (r : Listing) :
    find path (push a r) = a.text path ++ find path r := by
  cases a <;> rfl

theorem find_eq_nil : find path t = [] ↔ visible path t = 0 := by
  induction t generalizing path with
  | nil => exact iff_of_true rfl rfl
  | file name content rest ih =>
    rw [find, visible, List.append_eq_nil_iff, ih]
    by_cases hshown : shown (path ++ '/' :: name) name = true <;> simp [hshown]
  | dir name below rest ihb ih =>
    rw [find, visible, List.append_eq_nil_iff, List.append_eq_nil_iff, ih, ihb]
    by_cases hshown : shown (path ++ '/' :: name) name = true <;> simp [hshown, Nat.pos_iff_ne_zero]

/-- Zero or one. -/
def Item.weight (path : Str) (a : Item) : Nat := if a.text path = [] then 0 else 1

theorem visible_push (path : Str) (a : Item) (r : Listing) :
    visible path (push a r) = a.weight path + visible path r := by
  cases a with
  | file name content =>
    by_cases hshown : shown (path ++ '/' :: name) name = true <;>
      simp [push, visible, Item.weight, Item.text, hshown]
  | dir name below =>
    have hbelow : find (path ++ '/' :: name) below = [] ↔ visible (path ++ '/' :: name) below = 0 :=
      find_eq_nil
    by_cases hshown : shown (path ++ '/' :: name) name = true <;>
      simp [push, visible, Item.weight, Item.text, hshown, hbelow, Nat.pos_iff_ne_zero]

def Item.Narrow (path : Str) : Item → Prop
  | .file _ _ => True
  | .dir name below => NarrowAt (path ++ '/' :: name) below

theorem narrowBelow_push {r : Listing} : NarrowBelow path (push a r) ↔
    a.Narrow path ∧ NarrowBelow path r := by
  cases a with
  | file name content => exact ⟨fun h => ⟨trivial, h⟩, And.right⟩
  | dir name below => exact Iff.rfl

theorem Same.visible (h : Same t t') (path : Str) : visible path t' = visible path t := by
  induction h generalizing path with
  | nil => rfl
  | file name content h ih => rw [Chksum.visible, Chksum.visible, ih]
  | dir name hb h ihb ih => rw [Chksum.visible, Chksum.visible, ih, ihb]
  | swap a b r => simp only [visible_push, Nat.add_left_comm]
  | trans h h' ih ih' => rw [ih', ih]

theorem Same.narrowBelow (h : Same t t') (path : Str) (hnarrow : NarrowBelow path t) :
    NarrowBelow path t' := by
  induction h generalizing path with
  | nil => exact hnarrow
  | file name content h ih => exact ih path hnarrow
  | dir name hb h ihb ih =>
    obtain ⟨⟨hvisible, hbelow⟩, hrest⟩ := hnarrow
    exact ⟨⟨by rwa [hb.visible], ihb _ hbelow⟩, ih path hrest⟩
  | swap a b r =>
    rw [narrowBelow_push, narrowBelow_push] at hnarrow ⊢
    exact ⟨hnarrow.2.1, hnarrow.1, hnarrow.2.2⟩
  | trans h h' ih ih' => exact ih' path (ih path hnarrow)

/-- Where at most one entry prints something, the order makes no difference. -/
theorem Same.find (h : Same t t') (path : Str) (hnarrow : NarrowAt path t) : find path t' = find path t := by
  induction h generalizing path with
  | nil => rfl
  | file name content h ih =>
    obtain ⟨hvisible, hbelow⟩ := hnarrow
    rw [Chksum.visible] at hvisible
    rw [Chksum.find, Chksum.find, ih path ⟨by omega, hbelow⟩]
  | dir name hb h ihb ih =>
    obtain ⟨hvisible, hbelow, hrest⟩ := hnarrow
    rw [Chksum.visible] at hvisible
    rw [Chksum.find, Chksum.find, ihb _ hbelow, ih path ⟨by omega, hrest⟩]
  | swap a b r =>
    obtain ⟨hvisible, -⟩ := hnarrow
    rw [visible_push, visible_push] at hvisible
    simp only [find_push]
    by_cases ha : a.text path = []
    · rw [ha, List.nil_append, List.nil_append]
    · have hb : b.text path = [] := by
        by_contra hb
        rw [Item.weight, Item.weight, if_neg ha, if_neg hb] at hvisible
        omega
      rw [hb, List.nil_append, List.nil_append]
  | @trans r s t h h' ih ih' =>
    have hnarrow' : NarrowAt path s := ⟨by rw [h.visible]; exact hnarrow.1, h.narrowBelow path hnarrow.2⟩
    rw [ih' path hnarrow', ih path hnarrow]

end Order

section Sed

variable {line l u s : Str}

theorem sedLoop_line (hl : '\n' ∉ l) (line s : Str) :
    sedLoop line (l ++ '\n' :: s) = (edit (line ++ l)).elim [] (· ++ ['\n']) ++ sedLoop [] s := by
  induction l generalizing line with
  | nil => rw [List.nil_append, List.append_nil, sedLoop, if_pos rfl]
  | cons c l ih =>
    rw [List.mem_cons, not_or] at hl
    rw [List.cons_append, sedLoop, if_neg (Ne.symm hl.1), ih hl.2, List.append_assoc, List.singleton_append]

/-- Whole lines, one or more, or nothing. -/
def Lines (u : Str) : Prop := u = [] ∨ ∃ v, u = v ++ ['\n']

theorem Lines.append {v : Str} (hu : Lines u) (hv : Lines v) : Lines (u ++ v) := by
  rcases hv with rfl | ⟨w, rfl⟩
  · rwa [List.append_nil]
  · exact .inr ⟨u ++ w, (List.append_assoc u w _).symm⟩

theorem sedLoop_lines (v line s : Str) :
    sedLoop line (v ++ '\n' :: s) = sedLoop line (v ++ ['\n']) ++ sedLoop [] s := by
  induction v generalizing line with
  | nil =>
    have hnil : sedLoop [] [] = [] := rfl
    rw [List.nil_append, List.nil_append, sedLoop, if_pos rfl, sedLoop, if_pos rfl, hnil, List.append_nil]
  | cons c v ih =>
    rw [List.cons_append, List.cons_append, sedLoop, sedLoop]
    by_cases hc : c = '\n'
    · rw [if_pos hc, if_pos hc, ih, List.append_assoc]
    · rw [if_neg hc, if_neg hc, ih]

theorem sed_lines (hu : Lines u) (s : Str) : sed (u ++ s) = sed u ++ sed s := by
  rcases hu with rfl | ⟨v, rfl⟩
  · rfl
  · rw [List.append_assoc, List.singleton_append]
    exact sedLoop_lines v [] s

/-- Nothing of a path is deleted but its blanks and tabs. -/
theorem edit_dot (line : Str) : edit ('.' :: line) = some ('.' :: strip line) := by
  have hkept : strip ('.' :: line) = '.' :: strip line := rfl
  have hdeleted : deleted ('.' :: line) = false := rfl
  rw [edit, hdeleted, hkept]
  rfl

theorem sed_dot (hl : '\n' ∉ l) (s : Str) :
    sed ('.' :: l ++ '\n' :: s) = '.' :: strip l ++ '\n' :: sed s := by
  have hdot : '\n' ∉ '.' :: l := by
    rw [List.mem_cons, not_or]
    exact ⟨by decide, hl⟩
  have hline := sedLoop_line hdot [] s
  rw [List.nil_append, edit_dot, Option.elim_some] at hline
  rw [sed, hline, List.append_assoc]
  rfl

theorem strip_append (u s : Str) : strip (u ++ s) = strip u ++ strip s := List.filter_append u s

end Sed

section Different

variable {path u s s' v l l' : Str} {a : Item} {r t t' : Listing}

/-- The program of `sed` keeps two texts apart, whatever lines stand in front and whatever follows. -/
def Differ (s s' : Str) : Prop := ∀ u v v', Lines u → sed (u ++ (s ++ v)) ≠ sed (u ++ (s' ++ v'))

theorem Differ.inside (h : Differ s s') (hu : Lines u) (v v' : Str) :
    Differ (u ++ s ++ v) (u ++ s' ++ v') := by
  intro w x x' hw
  have hfront := h (w ++ u) (v ++ x) (v' ++ x') (hw.append hu)
  simpa only [List.append_assoc] using hfront

def Listing.names : Listing → List Str
  | .nil => []
  | .file name _ rest => name :: rest.names
  | .dir name _ rest => name :: rest.names

/-- A name that is still told apart from others without its blanks and tabs. -/
def Distinct (name : Str) (others : List Str) : Prop :=
  '/' ∉ name ∧ '\n' ∉ name ∧ ∀ other ∈ others, strip name ≠ strip other

def Listing.Named : Listing → Prop
  | .nil => True
  | .file name _ rest => Distinct name rest.names ∧ rest.Named
  | .dir name below rest => Distinct name rest.names ∧ below.Named ∧ rest.Named

def Item.name : Item → Str
  | .file name _ => name
  | .dir name _ => name

theorem Listing.Named.of_mem (h : t.Named) {name : Str} (hname : name ∈ t.names) :
    '/' ∉ name ∧ '\n' ∉ name := by
  induction t with
  | nil => cases hname
  | file n content rest ih =>
    rcases List.mem_cons.mp hname with rfl | hname
    · exact ⟨h.1.1, h.1.2.1⟩
    · exact ih h.2 hname
  | dir n below rest _ ih =>
    rcases List.mem_cons.mp hname with rfl | hname
    · exact ⟨h.1.1, h.1.2.1⟩
    · exact ih h.2.2 hname

/-- The first line is the path of an entry, or of something below it. -/
theorem find_head (h : t.Named) (hne : find path t ≠ []) : ∃ name ∈ t.names, ∃ v s,
    find path t = path ++ '/' :: name ++ v ++ '\n' :: s ∧ (v = [] ∨ v.head? = some '/') ∧ '\n' ∉ v := by
  induction t generalizing path with
  | nil => exact absurd rfl hne
  | file n content rest ih =>
    rw [find] at hne ⊢
    by_cases hshown : shown (path ++ '/' :: n) n = true
    · exact ⟨n, List.mem_cons_self, [], content ++ find path rest, by simp [hshown], .inl rfl, by simp⟩
    · rw [if_neg hshown, List.nil_append] at hne ⊢
      obtain ⟨name, hname, hrest⟩ := ih h.2 hne
      exact ⟨name, List.mem_cons_of_mem n hname, hrest⟩
  | dir n below rest ihb ih =>
    rw [find] at hne ⊢
    by_cases hshown : shown (path ++ '/' :: n) n = true
    · exact ⟨n, List.mem_cons_self, [], find (path ++ '/' :: n) below ++ find path rest,
        by simp [hshown], .inl rfl, by simp⟩
    · rw [if_neg hshown, List.nil_append] at hne ⊢
      by_cases hbelow : find (path ++ '/' :: n) below = []
      · rw [hbelow, List.nil_append] at hne ⊢
        obtain ⟨name, hname, hrest⟩ := ih h.2.2 hne
        exact ⟨name, List.mem_cons_of_mem n hname, hrest⟩
      · obtain ⟨name, hname, v, s, hfirst, -, hv⟩ := ihb h.2.1 hbelow
        have hnewline := (h.2.1.of_mem hname).2
        refine ⟨n, List.mem_cons_self, '/' :: name ++ v, s ++ find path rest, by simp [hfirst], .inr rfl, ?_⟩
        simp [hnewline, hv]

theorem strip_behind (hv : v = [] ∨ v.head? = some '/') (s : Str) :
    ∃ d x, strip v ++ '\n' :: s = d :: x ∧ (d = '/' ∨ d = '\n') := by
  rcases hv with rfl | hv
  · exact ⟨'\n', s, rfl, .inr rfl⟩
  · obtain ⟨w, rfl⟩ := List.head?_eq_some_iff.mp hv
    exact ⟨'/', strip w ++ '\n' :: s, rfl, .inl rfl⟩

theorem takeWhile_strip {name : Str} {d : Char} (hname : '/' ∉ name ∧ '\n' ∉ name)
    (hd : d = '/' ∨ d = '\n') (s : Str) :
    (strip name ++ d :: s).takeWhile (fun c => c != '/' && c != '\n') = strip name := by
  have hchars : ∀ c ∈ strip name, (c != '/' && c != '\n') = true := by
    intro c hc
    have hmem := (List.mem_filter.mp hc).1
    simp only [Bool.and_eq_true, bne_iff_ne]
    exact ⟨fun heq => hname.1 (heq ▸ hmem), fun heq => hname.2 (heq ▸ hmem)⟩
  rw [List.takeWhile_append_of_pos hchars, List.takeWhile_cons_of_neg
    (by rcases hd with rfl | rfl <;> simp), List.append_nil]

/-- Paths in one directory are told apart by the names. -/
theorem differ_paths {q name other w x : Str} (hq : '\n' ∉ q) (hname : '/' ∉ name ∧ '\n' ∉ name)
    (hother : '/' ∉ other ∧ '\n' ∉ other) (hv : (v = [] ∨ v.head? = some '/') ∧ '\n' ∉ v)
    (hw : (w = [] ∨ w.head? = some '/') ∧ '\n' ∉ w) (hne : strip name ≠ strip other) :
    Differ ('.' :: q ++ '/' :: name ++ v ++ '\n' :: s) ('.' :: q ++ '/' :: other ++ w ++ '\n' :: x) := by
  have hprinted : ∀ {name v : Str}, '/' ∉ name ∧ '\n' ∉ name → (v = [] ∨ v.head? = some '/') ∧ '\n' ∉ v →
    ∀ u s z,
      Lines u → ∃ d y, (d = '/' ∨ d = '\n') ∧ sed (u ++ ('.' :: q ++ '/' :: name ++ v ++ '\n' :: s ++ z)) =
        (sed u ++ '.' :: strip q ++ ['/']) ++ (strip name ++ d :: y) := by
    intro name v hname hv u s z hu
    obtain ⟨d, y, hbehind, hd⟩ := strip_behind hv.1 (sed (s ++ z))
    have hline : '\n' ∉ q ++ '/' :: name ++ v := by simp [hq, hname.2, hv.2]
    have hsed := sed_dot hline (s ++ z)
    refine ⟨d, y, hd, ?_⟩
    rw [← hbehind, sed_lines hu]
    simp only [strip_append, List.cons_append, List.append_assoc] at hsed ⊢
    rw [hsed]
    simp [strip]
  intro u z z' hu heq
  obtain ⟨d, y, hd, hleft⟩ := hprinted hname hv u s z hu
  obtain ⟨e, y', he, hright⟩ := hprinted hother hw u x z' hu
  rw [hleft, hright] at heq
  have hrest := List.append_cancel_left heq
  rw [← takeWhile_strip hname hd y, hrest, takeWhile_strip hother he] at hne
  exact hne rfl

/-- The entry last. -/
def Listing.concat (a : Item) : Listing → Listing
  | .nil => push a .nil
  | .file name content rest => .file name content (rest.concat a)
  | .dir name below rest => .dir name below (rest.concat a)

theorem find_concat (path : Str) (a : Item) (r : Listing) :
    find path (r.concat a) = find path r ++ a.text path := by
  induction r with
  | nil => exact (find_push path a .nil).trans (List.append_nil _)
  | file name content rest ih => rw [Listing.concat, find, find, ih, List.append_assoc _ (find path rest)]
  | dir name below rest _ ih => rw [Listing.concat, find, find, ih, List.append_assoc _ (find path rest)]

theorem Same.refl (t : Listing) : Same t t := by
  induction t with
  | nil => exact .nil
  | file name content rest ih => exact .file name content ih
  | dir name below rest ihb ih => exact .dir name ihb ih

theorem Same.push {r' : Listing} (a : Item) (h : Same r r') : Same (push a r) (push a r') := by
  cases a with
  | file name content => exact .file name content h
  | dir name below => exact .dir name (.refl below) h

theorem same_concat (a : Item) (r : Listing) : Same (push a r) (r.concat a) := by
  induction r with
  | nil => exact .refl _
  | file name content rest ih => exact .trans (.swap a (.file name content) rest) (.file name content ih)
  | dir name below rest _ ih => exact .trans (.swap a (.dir name below) rest) (.dir name (.refl below) ih)

theorem names_push (a : Item) (r : Listing) : (push a r).names = a.name :: r.names := by
  cases a <;> rfl

theorem Listing.Named.parts (h : (push a r).Named) :
    Distinct a.name r.names ∧ (push a .nil).Named ∧ r.Named := by
  cases a with
  | file name content => exact ⟨h.1, ⟨⟨h.1.1, h.1.2.1, by simp [names]⟩, trivial⟩, h.2⟩
  | dir name below => exact ⟨h.1, ⟨⟨h.1.1, h.1.2.1, by simp [names]⟩, h.2.1, trivial⟩, h.2.2⟩

/-- Two entries print something: either may be read first. -/
theorem differ_first (hpath : ∃ q, path = '.' :: q ∧ '\n' ∉ q) (hnamed : (push a r).Named)
    (ha : a.text path ≠ [])
    (hr : find path r ≠ []) : Differ (find path (push a r)) (find path (r.concat a)) := by
  obtain ⟨q, rfl, hq⟩ := hpath
  obtain ⟨hdistinct, hitem, hrest⟩ := hnamed.parts
  have htext : find ('.' :: q) (push a .nil) = a.text ('.' :: q) :=
    (find_push _ a .nil).trans (List.append_nil _)
  obtain ⟨m, hm, v, s, hfirst, hv, hvline⟩ := find_head hitem (by rwa [htext])
  obtain ⟨n, hn, w, x, hsecond, hw, hwline⟩ := find_head hrest hr
  rw [names_push] at hm
  obtain rfl := List.mem_singleton.mp hm
  rw [htext] at hfirst
  have hdiffer : Differ ('.' :: q ++ '/' :: a.name ++ v ++ '\n' :: (s ++ find ('.' :: q) r))
      ('.' :: q ++ '/' :: n ++ w ++ '\n' :: (x ++ a.text ('.' :: q))) :=
    differ_paths hq ⟨hdistinct.1, hdistinct.2.1⟩ (hrest.of_mem hn) ⟨hv, hvline⟩ ⟨hw, hwline⟩
      (hdistinct.2.2 n hn)
  rw [hfirst, hsecond] at hdiffer
  rw [find_push, find_concat, hfirst, hsecond]
  simpa using hdiffer

/-- The rest of a directory makes the difference where the entry is read last. -/
theorem differ_rest {r₁ r₂ : Listing} (h₁ : Same r r₁) (h₂ : Same r r₂)
    (h : Differ (find path r₁) (find path r₂)) :
    ∃ t₁ t₂, Same (push a r) t₁ ∧ Same (push a r) t₂ ∧ Differ (find path t₁) (find path t₂) := by
  refine ⟨r₁.concat a, r₂.concat a, (h₁.push a).trans (same_concat a r₁),
    (h₂.push a).trans (same_concat a r₂), ?_⟩
  rw [find_concat, find_concat]
  exact h.inside (.inl rfl) (a.text path) (a.text path)

/-- An entry of a directory with two that print something, where the rest of it is settled. -/
theorem differ_entry (hpath : ∃ q, path = '.' :: q ∧ '\n' ∉ q) (hnamed : (push a r).Named)
    (h : ¬NarrowAt path (push a r))
    (ha : a.Narrow path)
    (hrest : ¬NarrowAt path r → ∃ r₁ r₂, Same r r₁ ∧ Same r r₂ ∧ Differ (find path r₁) (find path r₂)) :
    ∃ t₁ t₂, Same (push a r) t₁ ∧ Same (push a r) t₂ ∧ Differ (find path t₁) (find path t₂) := by
  by_cases hr : NarrowAt path r
  · have hvisible : ¬visible path (push a r) ≤ 1 := fun hle => h ⟨hle, narrowBelow_push.mpr ⟨ha, hr.2⟩⟩
    have hone := hr.1
    rw [visible_push] at hvisible
    have hentry : a.text path ≠ [] := by
      intro hnil
      rw [Item.weight, if_pos hnil] at hvisible
      omega
    have hothers : find path r ≠ [] := by
      rw [Ne, find_eq_nil]
      intro hzero
      rw [Item.weight, if_neg hentry] at hvisible
      omega
    exact ⟨push a r, r.concat a, .refl _, same_concat a r, differ_first hpath hnamed hentry hothers⟩
  · obtain ⟨r₁, r₂, h₁, h₂, hdiffer⟩ := hrest hr
    exact differ_rest h₁ h₂ hdiffer

theorem exists_differ (hpath : ∃ q, path = '.' :: q ∧ '\n' ∉ q) (hnamed : t.Named) (h : ¬NarrowAt path t) :
    ∃ t₁ t₂, Same t t₁ ∧ Same t t₂ ∧ Differ (find path t₁) (find path t₂) := by
  induction t generalizing path with
  | nil => exact absurd ⟨Nat.zero_le 1, trivial⟩ h
  | file name content rest ih =>
    exact differ_entry (a := .file name content) hpath hnamed h trivial (ih hpath hnamed.2)
  | dir name below rest ihb ih =>
    by_cases hbelow : NarrowAt (path ++ '/' :: name) below
    · exact differ_entry (a := .dir name below) hpath hnamed h hbelow (ih hpath hnamed.2.2)
    · have hlower : ∃ q, path ++ '/' :: name = '.' :: q ∧ '\n' ∉ q := by
        obtain ⟨q, rfl, hq⟩ := hpath
        exact ⟨q ++ '/' :: name, rfl, by simp [hq, hnamed.1.2.1]⟩
      obtain ⟨b₁, b₂, h₁, h₂, hdiffer⟩ := ihb hlower hnamed.2.1 hbelow
      refine ⟨.dir name b₁ rest, .dir name b₂ rest, .dir name h₁ (.refl rest), .dir name h₂ (.refl rest), ?_⟩
      refine hdiffer.inside ?_ (find path rest) (find path rest)
      by_cases hshown : shown (path ++ '/' :: name) name = true
      · rw [if_pos hshown]
        exact .inr ⟨_, rfl⟩
      · rw [if_neg hshown]
        exact .inl rfl

end Different

section Checksum

variable {md5sum : Str → Str} {confdir : Listing}

theorem summed_narrow (hnarrow : Narrow confdir) {other : Listing} (h : Same confdir other) :
    summed other = summed confdir := by
  rw [summed, summed, h.find _ hnarrow]

theorem narrow_of_summed (hnamed : confdir.Named)
    (h : ∀ other, Same confdir other → summed other = summed confdir) :
    Narrow confdir := by
  by_contra hnarrow
  obtain ⟨t₁, t₂, h₁, h₂, hdiffer⟩ := exists_differ ⟨[], rfl, by simp⟩ hnamed hnarrow
  have htop : Lines (".".toList ++ ['\n']) := .inr ⟨_, rfl⟩
  have hne := hdiffer _ [] [] htop
  have heq := (h t₁ h₁).trans (h t₂ h₂).symm
  rw [List.append_nil, List.append_nil] at hne
  exact hne heq

/-- The sums of the texts that the files of a package give in the orders of their directories are
told apart. -/
def NoCollision (md5sum : Str → Str) (confdir : Listing) : Prop :=
  ∀ other, Same confdir other → pkgchksum md5sum other = pkgchksum md5sum confdir →
    summed other = summed confdir

theorem newdelete_nil (chksum : Str → Str) (registered : List (Str × Str)) :
    newdelete chksum registered = [] ↔ ∀ entry ∈ registered, entry.2 = chksum entry.1 := by
  induction registered with
  | nil => simp [newdelete]
  | cons entry registered ih =>
    obtain ⟨pkg, cksum1⟩ := entry
    by_cases heq : cksum1 = chksum pkg <;> simp [newdelete, heq, ih]

/-- Whatever the order of its directories is, the package has its checksum and is not scheduled for
a rebuild. -/
def Unchanged (md5sum : Str → Str) (confdir : Listing) : Prop :=
  ∀ other, Same confdir other → pkgchksum md5sum other = pkgchksum md5sum confdir ∧
    newSourceChecksum false (pkgchksum md5sum confdir) (pkgchksum md5sum other) = false ∧
    ∀ pkg, newdelete (fun _ => pkgchksum md5sum other) [(pkg, pkgchksum md5sum confdir)] = []

theorem unchanged_of_narrow (md5sum : Str → Str) (hnarrow : Narrow confdir) : Unchanged md5sum confdir := by
  intro other hsame
  have hsum : pkgchksum md5sum other = pkgchksum md5sum confdir := by
    rw [pkgchksum, pkgchksum, summed_narrow hnarrow hsame]
  refine ⟨hsum, by simp [newSourceChecksum, hsum], fun pkg => ?_⟩
  rw [newdelete_nil, List.forall_mem_singleton]
  exact hsum.symm

/-- The checksum is that of the tree where no directory has two entries that print something; only
there, as far as names are told apart without their blanks and the sums of different texts differ. -/
theorem pkgchksum_order_iff (md5sum : Str → Str) (confdir : Listing) :
    (Narrow confdir → Unchanged md5sum confdir) ∧
      (confdir.Named → NoCollision md5sum confdir → (Unchanged md5sum confdir ↔ Narrow confdir)) := by
  refine ⟨unchanged_of_narrow md5sum, fun hnamed hmd5 => ⟨fun h => ?_, unchanged_of_narrow md5sum⟩⟩
  exact narrow_of_summed hnamed fun other hsame => hmd5 other hsame (h other hsame).1

/-- `md5sum` for the two texts of a package of two files. -/
def md5sumSample (text : Str) : Str :=
  if text = ".\n./a.conf\nmake=1\n./a.desc\n[V]1.0\n".toList then "442eee9af8d746e004ca83345f72953a  -".toList
  else "2cd9fbc1345580c82009c39fd29379b3  -".toList

def conf : Item := .file "a.conf".toList "# conf\nmake = 1\n".toList
def desc : Item := .file "a.desc".toList "[COPY] x\n[V] 1.0\n".toList
def cache : Item := .file "a.cache".toList "[DEP] b\n".toList

theorem pkgchksum_order_desc :
    Unchanged md5sumSample (push cache (push desc .nil)) ∧
      (Unchanged md5sumSample (push cache (push desc .nil)) ↔ Narrow (push cache (push desc .nil))) := by
  have hnarrow : Narrow (push cache (push desc .nil)) := ⟨by decide +kernel, trivial⟩
  refine ⟨(pkgchksum_order_iff md5sumSample _).1 hnarrow, (pkgchksum_order_iff md5sumSample _).2 ?_ ?_⟩
  · have hfirst : ∀ other ∈ ["a.desc".toList], strip "a.cache".toList ≠ strip other := by
      rw [List.forall_mem_singleton]
      decide
    exact ⟨⟨by decide, by decide, hfirst⟩, ⟨by decide, by decide, fun _ h => absurd h List.not_mem_nil⟩,
      trivial⟩
  · exact fun other hsame _ => summed_narrow hnarrow hsame

theorem pkgchksum_conf_desc :
    Same (push conf (push desc (push cache .nil))) (push desc (push conf (push cache .nil))) ∧
      pkgchksum md5sumSample (push conf (push desc (push cache .nil))) ≠
        pkgchksum md5sumSample (push desc (push conf (push cache .nil))) ∧
      newdelete (fun _ => pkgchksum md5sumSample (push desc (push conf (push cache .nil))))
        [("a".toList, pkgchksum md5sumSample (push conf (push desc (push cache .nil))))] = ["a".toList] :=
  ⟨.swap conf desc (push cache .nil), by decide +kernel, by decide +kernel⟩

end Checksum

end T2SDE.Chksum
