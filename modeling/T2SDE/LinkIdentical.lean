import T2SDE.Lib.ShellRead
import T2SDE.Lib.StableSort
import T2SDE.Lib.Xargs

namespace T2SDE.LinkIdentical

open Text ShellRead StableSort Xargs

section Files

abbrev Content := List UInt8

inductive Kind
  | regular (content : Content)
  | directory
  | other

/-- What all the links to a file share. -/
structure Inode where
  kind : Kind
  mode : Nat

/-- The paths below the directory, with the files that they lead to. -/
structure Tree where
  node : Str → Option Nat
  inode : Nat → Inode

def Tree.lookup (t : Tree) (path : Str) : Option Inode := (t.node path).map t.inode

def Tree.content (t : Tree) (path : Str) : Option Content :=
  (t.lookup path).bind fun i => match i.kind with
    | .regular content => some content
    | _ => none

/-- The characters that `xargs`, `read` and the shell take for something else. -/
def special : Str := " \t\n'\"\\*?[".toList

/-- A tree and the paths that `find -type f` prints. -/
structure Found where
  tree : Tree
  files : List Str
  once : files.Nodup
  all : ∀ path, path ∈ files ↔ ∃ content, tree.content path = some content
  dot : ∀ path ∈ files, path.head? = some '.'
  plain : ∀ path ∈ files, ∀ c ∈ path, c ∉ special

/-- A checksum is printed with 32 digits. -/
@[ext] structure Digest where
  text : Str
  length : text.length = 32
  hex : ∀ c ∈ text, c ∈ "0123456789abcdef".toList

end Files

section Program

def Tree.set (t : Tree) (path : Str) (node : Option Nat) : Tree := ⟨Function.update t.node path node, t.inode⟩

/-- `rm` -/
def Tree.rm (t : Tree) (path : Str) : Tree :=
  match (t.lookup path).map Inode.kind with
  | none | some .directory => t
  | some _ => t.set path none

/-- `ln` -/
def Tree.ln (t : Tree) (old new : Str) : Tree :=
  match t.node old, (t.lookup old).map Inode.kind, t.node new with
  | _, some .directory, _ => t
  | some i, _, none => t.set new (some i)
  | _, _, _ => t

/-- `[ -s path ]` -/
def Tree.hasSize (t : Tree) (path : Str) : Bool :=
  match (t.lookup path).map Inode.kind with
  | none => false
  | some (.regular content) => !content.isEmpty
  | some _ => true

def sumLine (digest : Digest) (path : Str) : Str := digest.text ++ [' ', ' '] ++ path

/-- `xargs md5sum`: without an argument the empty input is summed up. -/
def md5sum (md5 : Content → Digest) (t : Tree) (paths : List Str) : List Str :=
  if paths = [] then [sumLine (md5 []) ['-']]
  else paths.filterMap fun path => (t.content path).map fun content => sumLine (md5 content) path

/-- `find -type f | xargs md5sum | sort` -/
def sums (md5 : Content → Digest) (f : Found) : Str :=
  ((md5sum md5 f.tree (xargs (f.files.flatMap (· ++ ['\n'])))).insertionSort LineLe).flatMap (· ++ ['\n'])

/-- The loop over what has been read into `ck` and `fn`, with the number of the lines that it prints. -/
def linkLoop : Tree → Str → Str → List (Str × Str) → Tree × Nat
  | t, _, _, [] => (t, 0)
  | t, oldck, oldfn, (ck, fn) :: rest =>
    if oldck = ck ∧ t.hasSize fn = true then
      let (t, created) := linkLoop ((t.rm fn).ln oldfn fn) oldck oldfn rest
      (t, created + 1)
    else linkLoop t ck fn rest

def link_identical_files (md5 : Content → Digest) (f : Found) : Tree × Nat :=
  linkLoop f.tree [] [] ((readLines [] (sums md5 f)).map readFields)

end Program

section Statement

/-- No two files have one checksum without having one content. -/
def CollisionFree (md5 : Content → Digest) (t : Tree) : Prop :=
  ∀ p q content content', t.content p = some content → t.content q = some content' →
    md5 content = md5 content' → content = content'

/-- Every path has its content and its mode, and the same non-empty files are one. -/
structure Preserved (t t' : Tree) : Prop where
  same : ∀ path, t'.lookup path = t.lookup path
  linked : ∀ p q content mode, content ≠ [] → t.lookup p = some ⟨.regular content, mode⟩ →
    t.lookup q = some ⟨.regular content, mode⟩ → t'.node p = t'.node q

/-- Files with one content have one mode. -/
def SameModes (t : Tree) : Prop :=
  ∀ p q content mode mode', content ≠ [] → t.lookup p = some ⟨.regular content, mode⟩ →
    t.lookup q = some ⟨.regular content, mode'⟩ → mode = mode'

end Statement

section Tree

variable {t : Tree} {path old p q : Str} {content : Content}

theorem content_iff : t.content path = some content ↔ ∃ mode,
    t.lookup path = some ⟨.regular content, mode⟩ := by
  rw [Tree.content, Option.bind_eq_some_iff]
  constructor
  · rintro ⟨⟨kind, mode⟩, hlookup, hkind⟩
    cases kind with
    | regular content' =>
      cases hkind
      exact ⟨mode, hlookup⟩
    | directory => cases hkind
    | other => cases hkind
  · rintro ⟨mode, hlookup⟩
    exact ⟨_, hlookup, rfl⟩

theorem kind_of_content (h : t.content path = some content) :
    (t.lookup path).map Inode.kind = some (.regular content) := by
  obtain ⟨mode, hlookup⟩ := content_iff.mp h
  rw [hlookup]
  rfl

theorem hasSize_iff (h : t.content path = some content) : t.hasSize path = true ↔ content ≠ [] := by
  rw [Tree.hasSize, kind_of_content h]
  cases content with
  | nil => simp
  | cons c content => simp

theorem lookup_congr {t' : Tree} (hinode : t'.inode = t.inode) (hnode : t'.node p = t.node q) :
    t'.lookup p = t.lookup q := by
  rw [Tree.lookup, Tree.lookup, hinode, hnode]

theorem node_set (t : Tree) (path p : Str) (node : Option Nat) :
    (t.set path node).node p = if p = path then node else t.node p := Function.update_apply ..

theorem lookup_set (h : p ≠ path) (t : Tree) (node : Option Nat) : (t.set path node).lookup p = t.lookup p :=
  lookup_congr rfl (by rw [node_set, if_neg h])

theorem content_set (h : p ≠ path) (t : Tree) (node : Option Nat) :
    (t.set path node).content p = t.content p := by
  rw [Tree.content, Tree.content, lookup_set h]

theorem hasSize_set (h : p ≠ path) (t : Tree) (node : Option Nat) :
    (t.set path node).hasSize p = t.hasSize p := by
  rw [Tree.hasSize, Tree.hasSize, lookup_set h]

/-- A file that is removed and linked to another one. -/
theorem relink {content' : Content} (hpath : t.content path = some content)
    (hold : t.content old = some content')
    (hne : old ≠ path) : (t.rm path).ln old path = t.set path (t.node old) := by
  have hrm : t.rm path = t.set path none := by
    rw [Tree.rm, kind_of_content hpath]
  obtain ⟨i, hi⟩ : ∃ i, t.node old = some i := by
    obtain ⟨mode, hlookup⟩ := content_iff.mp hold
    obtain ⟨i, hi, -⟩ := Option.map_eq_some_iff.mp hlookup
    exact ⟨i, hi⟩
  rw [hrm, Tree.ln, lookup_set hne, kind_of_content hold, node_set, if_neg hne, hi, node_set, if_pos rfl]
  simp only [Tree.set, Function.update_idem]

end Tree

section Loop

variable {t : Tree} {oldck oldfn ck fn : Str} {lines rest : List (Str × Str)} {sized : Str → Bool}

/-- The file that the others with a checksum are linked to. -/
def leader (oldck oldfn : Str) (lines : List (Str × Str)) (ck : Str) : Str :=
  if oldck = ck then oldfn else ((lines.find? (·.1 = ck)).map Prod.snd).getD []

theorem leader_old (oldfn : Str) (lines : List (Str × Str)) (ck : Str) :
    leader ck oldfn lines ck = oldfn := if_pos rfl

theorem leader_head (h : oldck ≠ ck) (oldfn fn : Str) (rest : List (Str × Str)) :
    leader oldck oldfn ((ck, fn) :: rest) ck = fn := by
  have hfound : ((ck, fn) :: rest).find? (·.1 = ck) = some (ck, fn) :=
    List.find?_cons_of_pos (decide_eq_true rfl)
  rw [leader, if_neg h, hfound]
  rfl

theorem leader_tail {k : Str} (hold : oldck ≠ k) (hhead : ck ≠ k) (oldfn fn oldck' oldfn' : Str)
    (h' : oldck' ≠ k) :
    leader oldck oldfn ((ck, fn) :: rest) k = leader oldck' oldfn' rest k := by
  rw [leader, leader, if_neg hold, if_neg h', List.find?_cons_of_neg (by simpa using hhead)]

theorem leader_mem (oldfn : Str) (hold : oldck ≠ ck) (hmem : ∃ l ∈ lines, l.1 = ck) :
    (ck, leader oldck oldfn lines ck) ∈ lines := by
  cases hfind : lines.find? (·.1 = ck) with
  | none =>
    obtain ⟨l, hl, heq⟩ := hmem
    exact absurd (decide_eq_true heq) (List.find?_eq_none.mp hfind l hl)
  | some l =>
    have hck : l.1 = ck := by simpa using List.find?_some hfind
    rw [leader, if_neg hold, hfind, ← hck]
    exact List.mem_of_find?_eq_some hfind

/-- The lines are about different files, in the order of their checksums, and a checksum tells whether
its files have a size. -/
structure Sorted (t : Tree) (sized : Str → Bool) (oldck oldfn : Str) (lines : List (Str × Str)) : Prop where
  once : (oldfn :: lines.map Prod.snd).Nodup
  order : (oldck :: lines.map Prod.fst).Pairwise LineLe
  regular : ∀ l ∈ lines, ∃ content, t.content l.2 = some content
  size : ∀ l ∈ lines, t.hasSize l.2 = sized l.1
  old : oldck ∈ lines.map Prod.fst → ∃ content, t.content oldfn = some content

theorem Sorted.ne (h : Sorted t sized oldck oldfn ((ck, fn) :: rest)) {l : Str × Str} (hl : l ∈ rest) :
    l.2 ≠ fn := by
  have hfn : fn ∉ rest.map Prod.snd := (List.nodup_cons.mp (List.nodup_cons.mp h.once).2).1
  intro heq
  rw [← heq] at hfn
  exact hfn (List.mem_map_of_mem hl)

theorem Sorted.oldfn_ne (h : Sorted t sized oldck oldfn ((ck, fn) :: rest)) : oldfn ≠ fn :=
  fun heq => (List.nodup_cons.mp h.once).1 (heq ▸ List.mem_cons_self)

theorem Sorted.link (h : Sorted t sized oldck oldfn ((ck, fn) :: rest)) (node : Option Nat) :
    Sorted (t.set fn node) sized oldck oldfn rest where
  once := by
    have hsub : (oldfn :: rest.map Prod.snd).Sublist (oldfn :: ((ck, fn) :: rest).map Prod.snd) :=
      (List.sublist_cons_self _ _).cons_cons oldfn
    exact h.once.sublist hsub
  order := by
    have hsub : (oldck :: rest.map Prod.fst).Sublist (oldck :: ((ck, fn) :: rest).map Prod.fst) :=
      (List.sublist_cons_self _ _).cons_cons oldck
    exact h.order.sublist hsub
  regular l hl := by
    rw [content_set (h.ne hl)]
    exact h.regular l (List.mem_cons_of_mem _ hl)
  size l hl := by
    rw [hasSize_set (h.ne hl)]
    exact h.size l (List.mem_cons_of_mem _ hl)
  old hmem := by
    rw [content_set h.oldfn_ne]
    exact h.old (List.mem_cons_of_mem _ hmem)

theorem Sorted.next (h : Sorted t sized oldck oldfn ((ck, fn) :: rest)) : Sorted t sized ck fn rest where
  once := (List.nodup_cons.mp h.once).2
  order := (List.pairwise_cons.mp h.order).2
  regular l hl := h.regular l (List.mem_cons_of_mem _ hl)
  size l hl := h.size l (List.mem_cons_of_mem _ hl)
  old _ := h.regular _ List.mem_cons_self

/-- Behind a checksum that is another one than before, the old one does not come again. -/
theorem Sorted.past (h : Sorted t sized oldck oldfn ((ck, fn) :: rest)) (hne : oldck ≠ ck) {l : Str × Str}
    (hl : l ∈ rest) :
    oldck ≠ l.1 := by
  intro heq
  have horder := List.pairwise_cons.mp h.order
  have hfirst : LineLe oldck ck := horder.1 ck List.mem_cons_self
  have hback : LineLe ck l.1 := (List.pairwise_cons.mp horder.2).1 l.1 (List.mem_map_of_mem hl)
  rw [← heq] at hback
  exact hne (textLe_antisymm hfirst hback)

theorem linkLoop_link (hck : oldck = ck) (hsize : t.hasSize fn = true) :
    (linkLoop t oldck oldfn ((ck, fn) :: rest)).1 =
    (linkLoop ((t.rm fn).ln oldfn fn) oldck oldfn rest).1 := by
  rw [linkLoop, if_pos ⟨hck, hsize⟩]

theorem linkLoop_next (h : ¬(oldck = ck ∧ t.hasSize fn = true)) :
    linkLoop t oldck oldfn ((ck, fn) :: rest) = linkLoop t ck fn rest := by
  rw [linkLoop, if_neg h]

/-- Afterwards a file with a size is the leader of its checksum, and all others are what they were. -/
theorem linkLoop_spec (h : Sorted t sized oldck oldfn lines) :
    (linkLoop t oldck oldfn lines).1.inode = t.inode ∧
      (∀ p ∉ lines.map Prod.snd, (linkLoop t oldck oldfn lines).1.node p = t.node p) ∧
      ∀ l ∈ lines, (linkLoop t oldck oldfn lines).1.node l.2 =
        if sized l.1 = true then t.node (leader oldck oldfn lines l.1) else t.node l.2 := by
  induction lines generalizing t oldck oldfn with
  | nil => exact ⟨rfl, fun _ _ => rfl, fun l hl => absurd hl List.not_mem_nil⟩
  | cons l rest ih =>
    obtain ⟨ck, fn⟩ := l
    have hfn : fn ∉ rest.map Prod.snd := (List.nodup_cons.mp (List.nodup_cons.mp h.once).2).1
    have hsized : t.hasSize fn = sized ck := h.size _ List.mem_cons_self
    by_cases hlink : oldck = ck ∧ t.hasSize fn = true
    · obtain ⟨rfl, hsize⟩ := hlink
      obtain ⟨content, hcontent⟩ := h.regular _ List.mem_cons_self
      obtain ⟨content', hold⟩ := h.old List.mem_cons_self
      rw [linkLoop_link rfl hsize, relink hcontent hold h.oldfn_ne]
      obtain ⟨hinode, hother, hnode⟩ := ih (h.link (t.node oldfn))
      rw [hsized] at hsize
      refine ⟨hinode, fun p hp => ?_, fun l hl => ?_⟩
      · rw [List.map_cons, List.mem_cons, not_or] at hp
        rw [hother p hp.2, node_set, if_neg hp.1]
      · rcases List.mem_cons.mp hl with rfl | hl
        · rw [hother _ hfn, node_set, if_pos rfl, if_pos hsize, leader_old]
        · rw [hnode l hl, node_set, node_set, if_neg (h.ne hl)]
          by_cases hck : oldck = l.1
          · rw [← hck, leader_old, leader_old, if_neg h.oldfn_ne]
          · have hmem := leader_mem oldfn hck ⟨l, hl, rfl⟩
            rw [leader_tail hck hck oldfn fn oldck oldfn hck, if_neg (h.ne hmem)]
    · rw [linkLoop_next hlink]
      obtain ⟨hinode, hother, hnode⟩ := ih h.next
      refine ⟨hinode, fun p hp => ?_, fun l hl => ?_⟩
      · rw [List.map_cons, List.mem_cons, not_or] at hp
        exact hother p hp.2
      · rcases List.mem_cons.mp hl with rfl | hl
        · rw [hother _ hfn]
          by_cases hsize : sized ck = true
          · have hck : oldck ≠ ck := fun heq => hlink ⟨heq, hsized.trans hsize⟩
            rw [if_pos hsize, leader_head hck]
          · rw [if_neg hsize]
        · rw [hnode l hl]
          by_cases hsize : sized l.1 = true
          · rw [if_pos hsize, if_pos hsize]
            by_cases hck : ck = l.1
            · have hold : oldck ≠ ck := fun heq => hlink ⟨heq, by rw [hsized, hck, hsize]⟩
              rw [← hck, leader_old, leader_head hold]
            · have hold : oldck ≠ l.1 := by
                rintro rfl
                exact h.past (fun heq => hck heq.symm) hl rfl
              rw [leader_tail hold hck oldfn fn ck fn hck]
          · rw [if_neg hsize, if_neg hsize]

end Loop

section Lines

variable {md5 : Content → Digest} {f : Found} {path : Str} {content : Content} {c : Char}

theorem special_free (hpath : path ∈ f.files) (hc : c ∈ path) :
    Xargs.blank c = false ∧ c ∉ ['\n', '\\', '"', '\''] ∧ isBlank c = false := by
  have hplain := f.plain path hpath c hc
  have hspecial : special = [' ', '\t', '\n', '\'', '"', '\\', '*', '?', '['] := rfl
  rw [hspecial] at hplain
  simp only [List.mem_cons, List.not_mem_nil, or_false, not_or] at hplain
  simp [Xargs.blank, isBlank, hplain]

theorem hex_free (d : Digest) (hc : c ∈ d.text) : isBlank c = false ∧ c ≠ '\n' ∧ c ≠ '\\' := by
  have hall : ∀ c ∈ "0123456789abcdef".toList, isBlank c = false ∧ c ≠ '\n' ∧ c ≠ '\\' := by
    have hchars : "0123456789abcdef".toList.all (fun c => !isBlank c && c != '\n' && c != '\\') = true := rfl
    intro c hc
    have hone := List.all_eq_true.mp hchars c hc
    simpa [and_assoc] using hone
  exact hall c (d.hex c hc)

theorem xargs_files (f : Found) : xargs (f.files.flatMap (· ++ ['\n'])) = f.files := by
  refine xargs_words (fun path hpath => ?_) fun path hpath c hc => ?_
  · obtain ⟨rest, hrest⟩ := List.head?_eq_some_iff.mp (f.dot path hpath)
    exact ⟨'.', rest, hrest, rfl⟩
  · exact ⟨(special_free hpath hc).1, (special_free hpath hc).2.1⟩

/-- The line of a file. -/
def lineOf (md5 : Content → Digest) (t : Tree) (path : Str) : Str :=
  sumLine (md5 ((t.content path).getD [])) path

theorem md5sum_files (hfiles : f.files ≠ []) :
    md5sum md5 f.tree f.files = f.files.map (lineOf md5 f.tree) := by
  rw [md5sum, if_neg hfiles, ← List.filterMap_eq_map]
  refine List.filterMap_congr fun path hpath => ?_
  obtain ⟨content, hcontent⟩ := (f.all path).mp hpath
  rw [hcontent, Function.comp_apply, lineOf, hcontent]
  rfl

theorem readFields_line (d : Digest) (hfree : ∀ c ∈ path, isBlank c = false) :
    readFields ((sumLine d path).map (·, false)) = (d.text, path) := by
  have hfst : Prod.fst ∘ (fun c : Char => (c, false)) = id := rfl
  have hcmd : ∀ i ∈ d.text.map (·, false), isSep i = false := by
    intro i hi
    obtain ⟨c, hc, rfl⟩ := List.mem_map.mp hi
    rw [isSep_plain]
    exact (hex_free d hc).1
  have hdigits : d.text.map (·, false) ≠ [] := by
    intro hnil
    have hlength := d.length
    rw [List.map_eq_nil_iff.mp hnil] at hlength
    cases hlength
  have hword : ∀ i ∈ path.map (·, false), isSep i = false := by
    intro i hi
    obtain ⟨c, hc, rfl⟩ := List.mem_map.mp hi
    rw [isSep_plain]
    exact hfree c hc
  have hblanks : (((' ', false) :: (' ', false) :: path.map (·, false)).dropWhile isSep).rdropWhile isSep =
      path.map (·, false) := by
    rw [List.dropWhile_cons_of_pos rfl, List.dropWhile_cons_of_pos rfl]
    have hstart : (path.map (·, false)).dropWhile isSep = path.map (·, false) := by
      rw [List.dropWhile_eq_self_iff]
      intro hlength
      rw [hword _ (List.getElem_mem hlength)]
      exact Bool.false_ne_true
    rw [hstart, List.rdropWhile_eq_self_iff]
    intro hnil
    rw [hword _ (List.getLast_mem hnil)]
    exact Bool.false_ne_true
  have hline : (sumLine d path).map (·, false) =
      [] ++ (d.text.map (·, false) ++ ((' ', false) :: (' ', false) :: path.map (·, false))) := by
    rw [sumLine, List.map_append, List.map_append, List.append_assoc]
    rfl
  rw [hline, readFields_command (fun _ h => absurd h List.not_mem_nil) hcmd hdigits
    (fun i hi => by cases hi; rfl), hblanks, List.map_map, List.map_map, hfst, List.map_id, List.map_id]

theorem readFields_file (d : Digest) (hpath : path ∈ f.files) :
    readFields ((sumLine d path).map (·, false)) = (d.text, path) := by
  exact readFields_line d fun c hc => (special_free hpath hc).2.2

/-- What is read into `ck` and `fn`. -/
def pairs (md5 : Content → Digest) (f : Found) : List (Str × Str) :=
  (readLines [] (sums md5 f)).map readFields

theorem mem_sums {line : Str} (h : line ∈ (f.files.map (lineOf md5 f.tree)).insertionSort LineLe) :
    ∃ path ∈ f.files, line = lineOf md5 f.tree path := by
  obtain ⟨path, hpath, rfl⟩ := List.mem_map.mp ((List.perm_insertionSort LineLe _).mem_iff.mp h)
  exact ⟨path, hpath, rfl⟩

theorem pairs_files (hfiles : f.files ≠ []) : pairs md5 f =
    ((f.files.map (lineOf md5 f.tree)).insertionSort LineLe).map fun line =>
    readFields (line.map (·, false)) := by
  rw [pairs, sums, xargs_files, md5sum_files hfiles, readLines_lines, List.map_map]
  · rfl
  · intro line hline hmem
    obtain ⟨path, hpath, rfl⟩ := mem_sums hline
    rw [lineOf, sumLine, List.mem_append, List.mem_append] at hmem
    rcases hmem with (hmem | hmem) | hmem
    · exact (hex_free _ hmem).2.1 rfl
    · exact absurd hmem (by decide)
    · exact (special_free hpath hmem).2.1 List.mem_cons_self
  · intro line hline hmem
    obtain ⟨path, hpath, rfl⟩ := mem_sums hline
    rw [lineOf, sumLine, List.mem_append, List.mem_append] at hmem
    rcases hmem with (hmem | hmem) | hmem
    · exact (hex_free _ hmem).2.2 rfl
    · exact absurd hmem (by decide)
    · exact (special_free hpath hmem).2.1 (by simp)

/-- Each file is read once, with its checksum, and in the order of the checksums. -/
theorem pairs_spec (md5 : Content → Digest) (hfiles : f.files ≠ []) :
    ((pairs md5 f).map Prod.snd).Perm f.files ∧
      (∀ l ∈ pairs md5 f, ∃ content, f.tree.content l.2 = some content ∧ l.1 = (md5 content).text) ∧
      ((pairs md5 f).map Prod.fst).Pairwise LineLe := by
  have hsplit : ∀ path ∈ f.files, readFields ((lineOf md5 f.tree path).map (·, false)) =
      ((md5 ((f.tree.content path).getD [])).text, path) := fun path hpath => readFields_file _ hpath
  rw [pairs_files hfiles]
  refine ⟨?_, fun l hl => ?_, ?_⟩
  · have hperm := (List.perm_insertionSort LineLe (f.files.map (lineOf md5 f.tree))).map
      fun line => (readFields (line.map (·, false))).2
    rw [List.map_map]
    refine hperm.trans (List.Perm.of_eq ?_)
    rw [List.map_map]
    refine (List.map_congr_left fun path hpath => ?_).trans (List.map_id f.files)
    rw [Function.comp_apply, hsplit path hpath]
    rfl
  · obtain ⟨line, hline, rfl⟩ := List.mem_map.mp hl
    obtain ⟨path, hpath, rfl⟩ := mem_sums hline
    obtain ⟨content, hcontent⟩ := (f.all path).mp hpath
    refine ⟨content, ?_⟩
    rw [hsplit path hpath]
    exact ⟨hcontent, by rw [hcontent]; rfl⟩
  · rw [List.map_map, List.pairwise_map]
    refine (List.pairwise_insertionSort LineLe _).imp_of_mem fun {a b} ha hb hab => ?_
    obtain ⟨p, hp, rfl⟩ := mem_sums ha
    obtain ⟨q, hq, rfl⟩ := mem_sums hb
    rw [Function.comp_apply, Function.comp_apply, hsplit p hp, hsplit q hq]
    by_cases heq : (md5 ((f.tree.content p).getD [])).text = (md5 ((f.tree.content q).getD [])).text
    · rw [heq]
      exact textLe_refl _
    · have hlength : (md5 ((f.tree.content p).getD [])).text.length =
        (md5 ((f.tree.content q).getD [])).text.length := by
        rw [Digest.length, Digest.length]
      rw [LineLe, lineOf, lineOf, sumLine, sumLine, List.append_assoc, List.append_assoc,
        textLe_append hlength heq] at hab
      exact hab

end Lines

section Result

variable {md5 : Content → Digest} {f : Found} {p q : Str} {content : Content}

theorem pairs_empty (md5 : Content → Digest) (hfiles : f.files = []) :
    pairs md5 f = [((md5 []).text, ['-'])] := by
  have hnone : xargs (f.files.flatMap (· ++ ['\n'])) = [] := by rw [hfiles]; rfl
  have hsums : sums md5 f = [sumLine (md5 []) ['-']].flatMap (· ++ ['\n']) := by
    rw [sums, hnone]
    rfl
  have hdigits : ∀ c ∈ sumLine (md5 []) ['-'], c ≠ '\n' ∧ c ≠ '\\' := by
    intro c hc
    rw [sumLine, List.mem_append, List.mem_append] at hc
    rcases hc with (hc | hc) | hc
    · exact (hex_free _ hc).2
    · simp only [List.mem_cons, List.not_mem_nil, or_false, or_self] at hc
      rw [hc]
      decide
    · rw [List.mem_singleton.mp hc]
      decide
  have hone : ∀ l ∈ [sumLine (md5 []) ['-']], '\n' ∉ l ∧ '\\' ∉ l := by
    intro l hl
    rw [List.mem_singleton.mp hl]
    exact ⟨fun hmem => (hdigits _ hmem).1 rfl, fun hmem => (hdigits _ hmem).2 rfl⟩
  rw [pairs, hsums, readLines_lines (fun l hl => (hone l hl).1) fun l hl => (hone l hl).2, List.map_singleton,
    List.map_singleton, readFields_line _ fun c hc => by rw [List.mem_singleton.mp hc]; rfl]

theorem digest_ne_nil (d : Digest) : d.text ≠ [] := by
  intro hnil
  have hlength := d.length
  rw [hnil] at hlength
  cases hlength

/-- Whether a file with a checksum has a size. -/
def sizeOf (md5 : Content → Digest) (f : Found) (ck : Str) : Bool :=
  (pairs md5 f).any fun l => l.1 = ck && f.tree.hasSize l.2

theorem sorted_pairs (hmd5 : CollisionFree md5 f.tree) (hfiles : f.files ≠ []) :
    Sorted f.tree (sizeOf md5 f) [] [] (pairs md5 f) := by
  obtain ⟨hperm, hpairs, horder⟩ := pairs_spec md5 hfiles
  refine ⟨List.nodup_cons.mpr ⟨fun hnil => ?_, hperm.nodup_iff.mpr f.once⟩,
    List.pairwise_cons.mpr ⟨fun _ _ => rfl, horder⟩,
    fun l hl => ?_, fun l hl => ?_, fun hnil => ?_⟩
  · have hdot := f.dot [] (hperm.mem_iff.mp hnil)
    cases hdot
  · obtain ⟨content, hcontent, -⟩ := hpairs l hl
    exact ⟨content, hcontent⟩
  · rw [Bool.eq_iff_iff, sizeOf, List.any_eq_true]
    constructor
    · intro hsize
      exact ⟨l, hl, by rw [hsize]; simp⟩
    · rintro ⟨l', hl', h⟩
      rw [Bool.and_eq_true, decide_eq_true_eq] at h
      obtain ⟨content, hcontent, hck⟩ := hpairs l hl
      obtain ⟨content', hcontent', hck'⟩ := hpairs l' hl'
      have hsame : content' = content :=
        hmd5 _ _ _ _ hcontent' hcontent (Digest.ext (by rw [← hck', h.1, hck]))
      rw [hasSize_iff hcontent, ← hsame]
      exact (hasSize_iff hcontent').mp h.2
  · obtain ⟨l, hl, hck⟩ := List.mem_map.mp hnil
    obtain ⟨content, -, heq⟩ := hpairs l hl
    exact absurd (heq.symm.trans hck) (digest_ne_nil _)

/-- Afterwards the non-empty files with one content are one of them, and all else is what it was. -/
theorem link_spec (hmd5 : CollisionFree md5 f.tree) : ∃ lead : Content → Str,
    (link_identical_files md5 f).1.inode = f.tree.inode ∧
      (∀ p, (∀ content, f.tree.content p = some content → content = []) →
        (link_identical_files md5 f).1.node p = f.tree.node p) ∧
      ∀ p content, content ≠ [] → f.tree.content p = some content →
      f.tree.content (lead content) = some content ∧
        (link_identical_files md5 f).1.node p = f.tree.node (lead content) := by
  by_cases hfiles : f.files = []
  · have hlink : (link_identical_files md5 f).1 = f.tree := by
      have hpairs := pairs_empty md5 hfiles
      rw [pairs] at hpairs
      rw [link_identical_files, hpairs, linkLoop_next fun h => digest_ne_nil (md5 []) h.1.symm]
      rfl
    refine ⟨fun _ => [], by rw [hlink], fun p _ => by rw [hlink], fun p content _ hcontent => ?_⟩
    have hmem := (f.all p).mpr ⟨content, hcontent⟩
    rw [hfiles] at hmem
    cases hmem
  · obtain ⟨hperm, hpairs, -⟩ := pairs_spec md5 hfiles
    obtain ⟨hinode, hother, hnode⟩ := linkLoop_spec (sorted_pairs hmd5 hfiles)
    refine ⟨fun content => leader [] [] (pairs md5 f) (md5 content).text, hinode, fun p hp => ?_,
      fun p content hne hcontent => ?_⟩
    · by_cases hmem : p ∈ (pairs md5 f).map Prod.snd
      · obtain ⟨l, hl, rfl⟩ := List.mem_map.mp hmem
        obtain ⟨content, hcontent, -⟩ := hpairs l hl
        have hnone : ¬sizeOf md5 f l.1 = true := by
          rw [← (sorted_pairs hmd5 hfiles).size l hl, hasSize_iff hcontent]
          exact not_not.mpr (hp content hcontent)
        refine (hnode l hl).trans ?_
        rw [if_neg hnone]
      · exact hother p hmem
    · have hmem : p ∈ (pairs md5 f).map Prod.snd := hperm.mem_iff.mpr ((f.all p).mpr ⟨content, hcontent⟩)
      obtain ⟨l, hl, rfl⟩ := List.mem_map.mp hmem
      obtain ⟨content', hcontent', hck⟩ := hpairs l hl
      have hsame : content' = content := Option.some.inj (hcontent'.symm.trans hcontent)
      rw [hsame] at hck
      have hsize : sizeOf md5 f l.1 = true := by
        rw [← (sorted_pairs hmd5 hfiles).size l hl, hasSize_iff hcontent]
        exact hne
      have hlead : (l.1, leader [] [] (pairs md5 f) l.1) ∈ pairs md5 f :=
        leader_mem [] (fun hnil => digest_ne_nil _ (hck.symm.trans hnil.symm)) ⟨l, hl, rfl⟩
      obtain ⟨first, hfirst, hckfirst⟩ := hpairs _ hlead
      have hfirstsame : first = content := hmd5 _ _ _ _ hfirst hcontent (Digest.ext (hckfirst.symm.trans hck))
      rw [hfirstsame] at hfirst
      beta_reduce
      rw [← hck]
      refine ⟨hfirst, (hnode l hl).trans ?_⟩
      rw [if_pos hsize]

/-- Exactly in trees in which the files with one content have one mode, all paths keep their content and
their mode, and the same files are linked. -/
theorem preserved_iff (md5 : Content → Digest) (f : Found) (hmd5 : CollisionFree md5 f.tree) :
    Preserved f.tree (link_identical_files md5 f).1 ↔ SameModes f.tree := by
  obtain ⟨lead, hinode, hother, hnode⟩ := link_spec hmd5
  constructor
  · intro h p q content mode mode' hne hp hq
    have hmode : ∀ p mode, f.tree.lookup p = some ⟨.regular content, mode⟩ →
        f.tree.lookup (lead content) = some ⟨.regular content, mode⟩ := by
      intro p mode hp
      have hlead := lookup_congr hinode (hnode p content hne (content_iff.mpr ⟨mode, hp⟩)).2
      rw [← hlead, h.same, hp]
    have hboth := (hmode p mode hp).symm.trans (hmode q mode' hq)
    exact congrArg Inode.mode (Option.some.inj hboth)
  · intro h
    refine ⟨fun path => ?_, fun p q content mode hne hp hq => ?_⟩
    · by_cases hpath : ∀ content, f.tree.content path = some content → content = []
      · exact lookup_congr hinode (hother path hpath)
      · rw [not_forall] at hpath
        obtain ⟨content, hcontent⟩ := hpath
        rw [Classical.not_imp] at hcontent
        obtain ⟨hlead, hlink⟩ := hnode path content hcontent.2 hcontent.1
        obtain ⟨mode, hp⟩ := content_iff.mp hcontent.1
        obtain ⟨mode', hq⟩ := content_iff.mp hlead
        rw [lookup_congr hinode hlink, hp, hq, h path (lead content) content mode mode' hcontent.2 hp hq]
    · have hfirst := (hnode p content hne (content_iff.mpr ⟨mode, hp⟩)).2
      have hsecond := (hnode q content hne (content_iff.mpr ⟨mode, hq⟩)).2
      rw [hfirst, hsecond]

theorem of_all {P : Char → Prop} [DecidablePred P] {text : Str} (h : text.all (fun c => P c) = true) :
    ∀ c ∈ text, P c := fun c hc => of_decide_eq_true (List.all_eq_true.mp h c hc)

/-- The files `./a` and `./b`. -/
def twoFiles (second : Content) : Tree where
  node path := if path = "./a".toList then some 0 else if path = "./b".toList then some 1 else none
  inode i := if i = 0 then ⟨.regular [97, 10], 0o644⟩ else ⟨.regular second, 0o755⟩

theorem content_twoFiles (second : Content) (path : Str) : (twoFiles second).content path =
    if path = "./a".toList then some [97, 10] else if path = "./b".toList then some second else none := by
  have hnode : (twoFiles second).node path =
      if path = "./a".toList then some 0 else if path = "./b".toList then some 1 else none := rfl
  by_cases ha : path = "./a".toList
  · rw [if_pos ha] at hnode ⊢
    rw [Tree.content, Tree.lookup, hnode]
    rfl
  · rw [if_neg ha] at hnode ⊢
    by_cases hb : path = "./b".toList
    · rw [if_pos hb] at hnode ⊢
      rw [Tree.content, Tree.lookup, hnode]
      rfl
    · rw [if_neg hb] at hnode ⊢
      rw [Tree.content, Tree.lookup, hnode]
      rfl

def twoFound (second : Content) : Found where
  tree := twoFiles second
  files := ["./a".toList, "./b".toList]
  once := by decide
  all path := by
    rw [content_twoFiles]
    by_cases ha : path = "./a".toList
    · simp [ha]
    · by_cases hb : path = "./b".toList
      · simp [hb]
      · rw [if_neg ha, if_neg hb]
        refine iff_of_false (fun hmem => ?_) fun ⟨_, hnone⟩ => by cases hnone
        rcases List.mem_cons.mp hmem with hmem | hmem
        · exact ha hmem
        · exact hb (List.mem_singleton.mp hmem)
  dot := by decide
  plain path hpath := by
    rcases List.mem_cons.mp hpath with rfl | hpath
    · exact of_all rfl
    · rw [List.mem_singleton.mp hpath]
      exact of_all rfl

def digestA : Digest := ⟨"60b725f10c9c85c70d97880dfe8191b3".toList, by decide, of_all rfl⟩

def digestB : Digest := ⟨"3b5d5c3712955042212316173ccf37be".toList, by decide, of_all rfl⟩

def sampleSum (content : Content) : Digest := if content = [98, 10] then digestB else digestA

theorem sample_preserved :
    Preserved (twoFiles [98, 10]) (link_identical_files sampleSum (twoFound [98, 10])).1 := by
  have hpath : ∀ p content, (twoFiles [98, 10]).content p = some content →
      p = "./a".toList ∧ content = [97, 10] ∨ p = "./b".toList ∧ content = [98, 10] := by
    intro p content hp
    rw [content_twoFiles] at hp
    split at hp
    next ha => exact .inl ⟨ha, (Option.some.inj hp).symm⟩
    next =>
      split at hp
      next hb => exact .inr ⟨hb, (Option.some.inj hp).symm⟩
      next => cases hp
  have hfree : CollisionFree sampleSum (twoFound [98, 10]).tree := by
    intro p q content content' hp hq hsum
    rcases hpath p content hp with ⟨-, rfl⟩ | ⟨-, rfl⟩
    · rcases hpath q content' hq with ⟨-, rfl⟩ | ⟨-, rfl⟩
      · rfl
      · exact absurd (congrArg Digest.text hsum) (by decide)
    · rcases hpath q content' hq with ⟨-, rfl⟩ | ⟨-, rfl⟩
      · exact absurd (congrArg Digest.text hsum) (by decide)
      · rfl
  refine (preserved_iff sampleSum (twoFound [98, 10]) hfree).mpr ?_
  intro p q content mode mode' _ hp hq
  have hsame : p = q := by
    rcases hpath p content (content_iff.mpr ⟨mode, hp⟩) with ⟨rfl, rfl⟩ | ⟨rfl, rfl⟩
    · rcases hpath q _ (content_iff.mpr ⟨mode', hq⟩) with ⟨rfl, -⟩ | ⟨rfl, heq⟩
      · rfl
      · exact absurd heq (by decide)
    · rcases hpath q _ (content_iff.mpr ⟨mode', hq⟩) with ⟨rfl, heq⟩ | ⟨rfl, -⟩
      · exact absurd heq (by decide)
      · rfl
  rw [hsame, hq] at hp
  exact congrArg Inode.mode (Option.some.inj hp.symm)

/-- A file is linked to one with another mode. -/
theorem mode_changed : ¬∀ (md5 : Content → Digest) (f : Found), CollisionFree md5 f.tree →
    Preserved f.tree (link_identical_files md5 f).1 := by
  intro h
  have hcontents : ∀ p content, (twoFiles [97, 10]).content p = some content → content = [97, 10] := by
    intro p content hp
    rw [content_twoFiles] at hp
    split at hp
    · exact (Option.some.inj hp).symm
    · split at hp
      · exact (Option.some.inj hp).symm
      · cases hp
  have hfree : CollisionFree sampleSum (twoFound [97, 10]).tree := by
    intro p q content content' hp hq _
    rw [hcontents p content hp, hcontents q content' hq]
  obtain ⟨lead, hinode, -, hnode⟩ := link_spec hfree
  have hsame := (h sampleSum (twoFound [97, 10]) hfree).same
  have ha := (hnode "./a".toList [97, 10] (List.cons_ne_nil _ _) rfl).2
  have hb := (hnode "./b".toList [97, 10] (List.cons_ne_nil _ _) rfl).2
  have hboth :=
    (hsame "./a".toList).symm.trans ((lookup_congr rfl (ha.trans hb.symm)).trans (hsame "./b".toList))
  have hmode := congrArg (Option.map Inode.mode) hboth
  exact absurd hmode (by decide)

end Result

end T2SDE.LinkIdentical
