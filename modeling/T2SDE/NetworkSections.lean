import T2SDE.Lib.Sections
import T2SDE.NetworkConfig

namespace T2SDE.Network

open Text ShellRead Echo Sections

section Definitions

/-- Whether a statement starts a section, and whether it is the section of this name. -/
def start (name : Str) (s : Str × Str) : Option Bool :=
  if s.1 = interface then some (mangle s.2 == name) else none

/-- New statements in the place of a section; those of no interface stand in front. -/
def replaceSection (name : Str) (new old : List (Str × Str)) : List (Str × Str) :=
  (if name = [] then new else []) ++ replaced new (name == []) (name == []) (marked (start name) old)

/-- The sections in which the statements stand, one behind the other. -/
def labels (name : Str) : List (Str × Str) → List Str
  | [] => []
  | s :: rest =>
    let name := if s.1 = interface then mangle s.2 else name
    name :: labels name rest

/-- A tag is a line that `echo` prints as it is, and that does not go on in the next one. -/
structure Tag where
  text : Str
  option : isOption text = false
  free : '\n' ∉ text
  stripped : whole (stripComment text) = true

def Tag.read (tag : Tag) : Option (Str × Str) := readText tag.text

/-- A configuration file, with what stands behind its last newline. -/
structure Config where
  lines : List Line
  rest : Str
  free : '\n' ∉ rest

def Config.text (config : Config) : Str := textOf config.lines ++ config.rest

/-- A statement with its parameters for `read_section`, and for `write_section`. -/
structure Row where
  netcmd : Str
  para : Str
  written : Str

def Line.row (l : Line) : Option Row := l.read.bind fun s => l.written.map fun w => ⟨s.1, s.2, w.2⟩

def Config.rows (config : Config) : List Row := config.lines.filterMap Line.row

def Row.stmt (r : Row) : Str × Str := (r.netcmd, r.para)

/-- What is read of the statement when it has been written. -/
def Row.again (r : Row) : Str × Str := (r.netcmd, cut r.para)

end Definitions

section Rows

variable {p q s cmd para : Str} {l : Line} {r : Row}

theorem isOption_escape (p : Str) : isOption (escapePara p) = isOption p := by
  by_cases hspecial : ∃ c ∈ p, special c = true
  · obtain ⟨c, hc, hspecial⟩ := hspecial
    have hslash : '\\' ∈ escapePara p := by
      rw [escapePara, ShellRead.escape, List.mem_flatMap]
      refine ⟨c, hc, ?_⟩
      rw [if_pos hspecial]
      exact List.mem_cons_self
    have hleft : isOption (escapePara p) = false := by
      by_contra h
      rw [Bool.not_eq_false] at h
      exact absurd (isOption_free h _ hslash).2 (by decide)
    have hright : isOption p = false := by
      by_contra h
      rw [Bool.not_eq_false] at h
      rw [(isOption_free h c hc).2] at hspecial
      cases hspecial
    rw [hleft, hright]
  · have hplain : escapePara p = p := by
      rw [escapePara, ShellRead.escape]
      refine (List.flatMap_congr fun c hc => if_neg fun h => hspecial ⟨c, hc, h⟩).trans ?_
      exact List.flatMap_singleton' p
    rw [hplain]

theorem cut_escape (p : Str) : cut (escapePara p) = escapePara (cut p) := by
  rw [cut, stripComment_escape, trim_escape, echoed, isOption_escape, cut, echoed]
  split
  next => rfl
  next => rfl

/-- What holds of a statement in a file. -/
structure Row.Ok (r : Row) : Prop where
  command : IsCommand r.netcmd
  para : ∃ p, r.para = escapePara p
  written : ∃ p, r.written = escapePara p
  cut : Network.cut r.written = Network.cut r.para
  option : isOption r.para = false
  freePara : '\n' ∉ r.para
  freeWritten : '\n' ∉ r.written

theorem map_dash {c : Char} (h : c ∈ s.map fun c => if c = '-' then '_' else c) (hc : c ≠ '_') : c ∈ s := by
  obtain ⟨d, hd, rfl⟩ := List.mem_map.mp h
  split at hc
  next => exact absurd rfl hc
  next hdash => rw [if_neg hdash]; exact hd

/-- The two variables hold nothing that does not stand in the line. -/
theorem entry_free (hs : '\n' ∉ s) (h : entry (readFields (items s)) = some (cmd, para)) :
    '\n' ∉ cmd ∧ '\n' ∉ para := by
  rw [entry] at h
  split at h
  · cases h
  obtain ⟨rfl, rfl⟩ := Prod.mk.inj (Option.some.inj h)
  have hitems : ∀ {is : List Item}, is.Sublist (items s) → '\n' ∉ is.map Prod.fst := by
    intro is hsub hmem
    obtain ⟨i, hi, hnewline⟩ := List.mem_map.mp hmem
    have hin := mem_items (hsub.subset hi)
    rw [hnewline] at hin
    exact hs hin
  have hdrop := (List.dropWhile_suffix isSep (l := items s)).sublist
  constructor
  · intro hmem
    have hword := map_dash hmem (by decide)
    exact hitems ((List.takeWhile_prefix _).sublist.trans hdrop) hword
  · intro hmem
    rw [escapePara, ShellRead.escape, List.mem_flatMap] at hmem
    obtain ⟨c, hc, hmem⟩ := hmem
    have hnewline : c = '\n' := by
      split at hmem
      · rcases List.mem_cons.mp hmem with h | h
        · cases h
        · exact (List.mem_singleton.mp h).symm
      · exact (List.mem_singleton.mp hmem).symm
    subst hnewline
    refine hitems ?_ ((echoed_sublist _).subset hc)
    exact (List.rdropWhile_prefix isSep _).sublist.trans
      (((List.dropWhile_suffix _).sublist.trans (List.dropWhile_suffix _).sublist).trans hdrop)

theorem Line.row_cases (l : Line) :
    (l.row = none ∧ l.read = none ∧ ∀ cmd para, l.written = some (cmd, para) → cmd.head? = some '#') ∨
      ∃ r : Row, l.row = some r ∧ r.Ok ∧ l.read = some r.stmt ∧ l.written = some (r.netcmd, r.written) := by
  rcases l.cases with ⟨hread, hwritten⟩ | ⟨cmd, p, p', hcommand, hread, hwritten, hcut, hoption⟩
  · refine .inl ⟨?_, hread, hwritten⟩
    rw [Line.row, hread]
    rfl
  · refine .inr ⟨⟨cmd, escapePara p, escapePara p'⟩, ?_, ?_, hread, hwritten⟩
    · rw [Line.row, hread, hwritten]
      rfl
    · have hstrip : '\n' ∉ stripComment l.text :=
        fun hmem => l.free ((stripComment_isPrefix l.text).subset hmem)
      refine ⟨hcommand, ⟨p, rfl⟩, ⟨p', rfl⟩, ?_, ?_, (entry_free hstrip hread).2,
        (entry_free l.free hwritten).2⟩
      · rw [cut_escape, cut_escape, hcut]
      · rw [isOption_escape]
        exact hoption

theorem row_ok {lines : List Line} (h : r ∈ lines.filterMap Line.row) : r.Ok := by
  obtain ⟨l, -, hrow⟩ := List.mem_filterMap.mp h
  rcases l.row_cases with ⟨hnone, -, -⟩ | ⟨r', hsome, hok, -, -⟩
  · rw [hnone] at hrow
    cases hrow
  · rw [hsome] at hrow
    cases Option.some.inj hrow
    exact hok

theorem rows_stmt (lines : List Line) :
    (lines.filterMap Line.row).map Row.stmt = lines.filterMap Line.read := by
  induction lines with
  | nil => rfl
  | cons l lines ih =>
    rw [filterMap_cons_toList, filterMap_cons_toList, List.map_append, ih]
    rcases l.row_cases with ⟨hrow, hread, -⟩ | ⟨r, hrow, -, hread, -⟩
    · rw [hrow, hread]
      rfl
    · rw [hrow, hread]
      rfl

/-- The line for a statement. -/
def IsCommand.tag (h : IsCommand cmd) (hp : '\n' ∉ escapePara p) : Tag where
  text := cmd ++ ' ' :: escapePara p
  option := by
    by_contra hoption
    rw [Bool.not_eq_false] at hoption
    have hspace := (isOption_free hoption ' ' (by simp)).1
    cases hspace
  free := by
    intro hmem
    rcases List.mem_append.mp hmem with hmem | hmem
    · exact (h.plain _ hmem).2.2.2 rfl
    · rcases List.mem_cons.mp hmem with heq | hmem
      · cases heq
      · exact hp hmem
  stripped := (h.readText p).2

theorem IsCommand.read_tag (h : IsCommand cmd) (hp : '\n' ∉ escapePara p) :
    (h.tag hp).read = some (cmd, cut (escapePara p)) := by
  rw [cut_escape]
  exact (h.readText p).1

end Rows

section Writing

variable {name : Str} {tags : List Tag}

theorem statements_newline (s : Str) : statements ('\n' :: s) = statements s :=
  statements_line (l := []) (by simp) rfl s

theorem plainEcho_tag (tag : Tag) : plainEcho tag.text = tag.text ++ ['\n'] := by
  rw [plainEcho, if_neg (by simp [tag.option])]

/-- What `echo` prints of a tag is read as the tag. -/
theorem statements_echo (tag : Tag) (tab : Bool) (s : Str) :
    statements ((if tab then ['\t'] else []) ++ plainEcho tag.text ++ s) =
    tag.read.toList ++ statements s := by
  rw [plainEcho_tag]
  cases tab with
  | false =>
    rw [if_neg (by simp), List.nil_append, List.append_assoc, List.singleton_append,
      statements_line tag.free tag.stripped]
    rfl
  | true =>
    have hfree : '\n' ∉ '\t' :: tag.text := by
      rw [List.mem_cons, not_or]
      exact ⟨by decide, tag.free⟩
    obtain ⟨hread, hwhole⟩ := readText_tab tag.text
    rw [if_pos rfl, ← List.append_assoc, List.append_assoc, List.singleton_append, List.singleton_append,
      statements_line hfree (hwhole.trans tag.stripped), hread]
    rfl

theorem readText_nil : readText [] = none := rfl

theorem statements_writeTags (tags : List Tag) (globals : Bool) (s : Str) :
    statements (writeTags globals (tags.map Tag.text) ++ s) = tags.filterMap Tag.read ++ statements s := by
  induction tags with
  | nil => rfl
  | cons tag tags ih =>
    rw [List.map_cons, writeTags, filterMap_cons_toList]
    split
    next h =>
      rw [ih, Tag.read, h, readText_nil]
      rfl
    next => rw [List.append_assoc, statements_echo, ih, List.append_assoc]

/-- A comment of a file as it is written through. -/
theorem comment_tag {l : Line} {cmd para : Str} (h : l.written = some (cmd, para))
    (hhead : cmd.head? = some '#') :
    ∃ tag : Tag, tag.text = cmd ++ ' ' :: para ∧ tag.read = none := by
  obtain ⟨hcmd, hpara⟩ := entry_free l.free h
  obtain ⟨w, rfl⟩ := List.head?_eq_some_iff.mp hhead
  have hcomment := readText_comment (t := '#' :: w ++ ' ' :: para) rfl
  refine ⟨⟨'#' :: w ++ ' ' :: para, rfl, ?_, hcomment.2⟩, rfl, hcomment.1⟩
  intro hmem
  rcases List.mem_append.mp hmem with hmem | hmem
  · exact hcmd hmem
  · exact hpara ((List.mem_cons.mp hmem).resolve_left (by decide))

theorem row_tag {r : Row} (h : r.Ok) : ∃ tag :
    Tag, tag.text = r.netcmd ++ ' ' :: r.written ∧ tag.read = some r.again := by
  obtain ⟨p, hp⟩ := h.written
  have hfree := h.freeWritten
  rw [hp] at hfree
  refine ⟨h.command.tag hfree, ?_, ?_⟩
  · rw [hp]
    rfl
  · rw [h.command.read_tag hfree, ← hp, h.cut]
    rfl

/-- The statements as the loop of `write_section` sees and writes them. -/
def seen (name : Str) (r : Row) : Option Bool × (Str × Str) := (start name (r.netcmd, r.written), r.again)

/-- The file that `write_section` leaves is read as the other sections with the tags between them. -/
theorem statements_writeLoop (tags : List Tag) (lines : List Line) (globals passit dumped : Bool) :
    statements (writeLoop name (tags.map Tag.text) globals passit dumped (lines.filterMap Line.written)) =
      (if !passit && !dumped then tags.filterMap Tag.read else []) ++
        replaced (tags.filterMap Tag.read) (!passit) (dumped || !passit)
          ((lines.filterMap Line.row).map (seen name)) := by
  induction lines generalizing globals passit dumped with
  | nil =>
    have hlast := statements_writeTags tags (globals && name == []) []
    rw [List.append_nil, (entries_rest (s := []) (by simp)).2, List.append_nil] at hlast
    have hnewline : ∀ s, statements ((if globals then [] else ['\n']) ++ s) = statements s := by
      intro s
      cases globals with
      | true => rfl
      | false => exact statements_newline s
    rw [List.filterMap_nil, List.filterMap_nil, writeLoop, hnewline, List.map_nil, replaced]
    cases dumped with
    | true => simp [(entries_rest (s := []) (by simp)).2]
    | false =>
      rw [if_neg (by simp), hlast]
      cases passit with
      | true => rfl
      | false => exact (List.append_nil _).symm
  | cons l lines ih =>
    have hdump : ∀ s,
      statements ((if !passit && !dumped then writeTags globals (tags.map Tag.text) else []) ++ s) =
        (if !passit && !dumped then tags.filterMap Tag.read else []) ++ statements s := by
      intro s
      split
      next => exact statements_writeTags tags globals s
      next => rfl
    have hdone : (dumped || !passit && !dumped) = (dumped || !passit) := by
      cases dumped with
      | true => rfl
      | false => rw [Bool.not_false, Bool.and_true]
    have honce : (!passit && !(dumped || !passit)) = false := by
      cases passit with
      | true => rfl
      | false => simp
    have hecho : ∀ (tag : Tag) (write tab : Bool) s,
        statements ((if write then (if tab then [] else ['\t']) ++ plainEcho tag.text else []) ++ s) =
          (if write then tag.read.toList else []) ++ statements s := by
      intro tag write tab s
      cases write with
      | false => rfl
      | true =>
        have hprint := statements_echo tag (!tab) s
        rw [if_pos rfl, if_pos rfl]
        cases tab with
        | true => exact hprint
        | false => exact hprint
    rcases l.row_cases with ⟨hrow, -, hwritten⟩ | ⟨r, hrow, hok, -, hwritten⟩
    · rw [filterMap_cons_toList Line.row, hrow, Option.toList_none, List.nil_append]
      cases hw : l.written with
      | none =>
        rw [filterMap_cons_toList, hw]
        exact ih globals passit dumped
      | some s =>
        obtain ⟨cmd, para⟩ := s
        have hhead := hwritten cmd para hw
        obtain ⟨tag, htag, hread⟩ := comment_tag hw hhead
        have hcmd : cmd ≠ interface := by
          rintro rfl
          cases hhead
        rw [filterMap_cons_toList, hw, Option.toList_some, List.singleton_append, writeLoop, if_neg hcmd,
          ← htag,
          hdump, hecho, hdone, ih, honce, hread, Bool.or_assoc, Bool.or_self]
        simp
    · obtain ⟨tag, htag, hread⟩ := row_tag hok
      rw [filterMap_cons_toList Line.row, hrow, Option.toList_some, List.singleton_append, List.map_cons,
        seen, replaced,
        filterMap_cons_toList, hwritten, Option.toList_some, List.singleton_append, writeLoop, start, ← htag]
      by_cases hcmd : r.netcmd = interface
      · rw [if_pos hcmd, if_pos hcmd, Option.getD_some, hdump, List.cons_append, statements_newline]
        have hheader : ∀ (write : Bool) s,
            statements ((if write then plainEcho tag.text else []) ++ s) =
              (if write then tag.read.toList else []) ++ statements s := fun write s => hecho tag write true s
        rw [hheader, hdone, ih, hread]
        refine congrArg _ ?_
        cases hname : mangle r.written == name with
        | true =>
          have hne : (mangle r.written != name) = false := by rw [bne, hname]; rfl
          rw [hne, Bool.not_false, Bool.or_true]
          cases dumped || !passit with
          | true => rfl
          | false => rfl
        | false =>
          have hne : (mangle r.written != name) = true := by rw [bne, hname]; rfl
          rw [hne, Bool.not_true, Bool.or_false]
          rfl
      · rw [if_neg hcmd, if_neg hcmd, Option.getD_none, hdump, hecho, hdone, ih, honce, hread,
          Bool.or_assoc, Bool.or_self]
        cases passit with
        | true => simp
        | false => simp
theorem entries_text (config : Config) : entries config.text = config.lines.filterMap Line.written :=
  entries_textOf config.lines config.free

theorem statements_text (config : Config) : statements config.text = config.rows.map Row.stmt := by
  rw [Config.text, statements_textOf config.lines config.free, Config.rows, rows_stmt]

/-- What `write_section` leaves of a file. -/
theorem statements_writeSection (config : Config) (name : Str) (tags : List Tag) :
    statements (writeSection config.text name (tags.map Tag.text)) =
      (if name = [] then tags.filterMap Tag.read else []) ++
        replaced (tags.filterMap Tag.read) (name == []) (name == []) (config.rows.map (seen name)) := by
  rw [writeSection, entries_text, statements_writeLoop]
  by_cases hname : name = []
  · subst hname
    rfl
  · have hbeq : (name == []) = false := beq_false_of_ne hname
    rw [if_neg hname, bne, hbeq]
    rfl

/-- The tags of a section are its statements. -/
theorem readLoop_tags (name : Str) (readit : Bool) (stmts : List (Str × Str)) :
    (readLoop name readit stmts).tags = (within readit (marked (start name) stmts)).map fun s =>
    s.1 ++ ' ' :: s.2 := by
  induction stmts generalizing readit with
  | nil => rfl
  | cons s stmts ih =>
    obtain ⟨netcmd, para⟩ := s
    rw [marked_cons, within, readLoop]
    by_cases hcmd : netcmd = interface
    · have hstart : start name (netcmd, para) = some (mangle para == name) := if_pos hcmd
      rw [if_pos hcmd, hstart, Option.getD_some, ih]
      split
      next => rfl
      next => rfl
    · have hstart : start name (netcmd, para) = none := if_neg hcmd
      rw [if_neg hcmd, hstart, Option.getD_none, ih]
      split
      next => rfl
      next => rfl

/-- The tags that `read_section` returns. -/
theorem exists_tags (config : Config) (name : Str) : ∃ tags : List Tag,
    tags.map Tag.text = (readSection config.text name).tags ∧ tags.filterMap Tag.read =
      within (name == []) (config.rows.map fun r => (start name r.stmt, r.again)) := by
  have hall : ∀ rows : List Row, (∀ r ∈ rows, r.Ok) → ∃ tags : List Tag,
      tags.map Tag.text = rows.map (fun r => r.netcmd ++ ' ' :: r.para) ∧
        tags.filterMap Tag.read = rows.map Row.again := by
    intro rows hrows
    induction rows with
    | nil => exact ⟨[], rfl, rfl⟩
    | cons r rows ih =>
      rw [List.forall_mem_cons] at hrows
      obtain ⟨tags, htext, hread⟩ := ih hrows.2
      obtain ⟨p, hp⟩ := hrows.1.para
      have hfree := hrows.1.freePara
      rw [hp] at hfree
      refine ⟨hrows.1.command.tag hfree :: tags, ?_, ?_⟩
      · rw [List.map_cons, List.map_cons, htext, hp]
        rfl
      · rw [List.filterMap_cons_some (hrows.1.command.read_tag hfree), hread, ← hp]
        rfl
  have hsplit := hall (within (name == []) (config.rows.map fun r => (start name r.stmt, r))) fun r hr => by
    obtain ⟨m, hm⟩ := mem_within hr
    obtain ⟨r', hr', heq⟩ := List.mem_map.mp hm
    cases heq
    exact row_ok hr'
  obtain ⟨tags, htext, hread⟩ := hsplit
  refine ⟨tags, ?_, ?_⟩
  · rw [htext, readSection, ← statements, statements_text, readLoop_tags, marked, List.map_map]
    have hmap := within_map Row.stmt (config.rows.map fun r => (start name r.stmt, r)) (name == [])
    rw [List.map_map] at hmap
    rw [show (fun x => (start name x, x)) ∘ Row.stmt =
      (fun r => (r.1, r.2.stmt)) ∘ (fun r : Row => (start name r.stmt, r))
      from rfl, hmap, List.map_map]
    rfl
  · rw [hread, ← within_map, List.map_map]
    rfl

end Writing

section Rewriting

variable {name : Str} {config : Config}

/-- `write_section` with the tags that `read_section` returns changes no statement, and with other
tags those of the section alone. -/
structure Rewrites (config : Config) (name : Str) : Prop where
  kept : statements (writeSection config.text name (readSection config.text name).tags) =
    statements config.text
  replaced : ∀ tags : List Tag, statements (writeSection config.text name (tags.map Tag.text)) =
    replaceSection (mangle name) (tags.filterMap Tag.read) (statements config.text)

/-- No comment behind the name of an interface, no parameters that need a backslash, the section in
one piece, and its name as it is compared. -/
structure Safe (config : Config) (name : Str) : Prop where
  agree : ∀ r ∈ config.rows, r.netcmd = interface → (mangle r.written = name ↔ mangle r.para = name)
  plain : ∀ r ∈ config.rows, Plain r.para
  together : ∀ other, [name, other, name].Sublist ([] :: labels [] (statements config.text)) → other = name
  named : ∀ r ∈ config.rows, r.netcmd = interface → mangle r.para = mangle name → mangle name = name

theorem mangle_idem (s : Str) : mangle (mangle s) = mangle s := by
  rw [mangle, mangle, List.map_map]
  refine List.map_congr_left fun c _ => ?_
  rw [Function.comp_apply]
  split
  next => rfl
  next => rfl

theorem mangle_beq_nil (name : Str) : (mangle name == []) = (name == []) := by
  cases name with
  | nil => rfl
  | cons c name => rfl

theorem labels_flags (name cur : Str) (stmts : List (Str × Str)) :
    (labels cur stmts).map (· == name) = flags (cur == name) (stmts.map (start name)) := by
  induction stmts generalizing cur with
  | nil => rfl
  | cons s stmts ih =>
    rw [labels, List.map_cons, List.map_cons, flags, ih, start]
    split
    next => rfl
    next => rfl

theorem sublist_map_iff (name : Str) (names : List Str) :
    (∀ other, [name, other, name].Sublist names → other = name) ↔
      ¬[true, false, true].Sublist (names.map (· == name)) := by
  constructor
  · intro h hsub
    obtain ⟨found, hfound, hmap⟩ := List.sublist_map_iff.mp hsub
    have hlen := congrArg List.length hmap
    rw [List.length_map] at hlen
    obtain ⟨a, b, c, rfl⟩ := List.length_eq_three.mp hlen.symm
    rw [List.map_cons, List.map_cons, List.map_cons, List.cons.injEq, List.cons.injEq,
      List.cons.injEq] at hmap
    obtain ⟨ha, hb, hc, -⟩ := hmap
    have ha := eq_of_beq ha.symm
    have hc := eq_of_beq hc.symm
    subst ha hc
    rw [h b hfound, beq_self_eq_true] at hb
    cases hb
  · intro h other hsub
    by_contra hne
    have hmap := hsub.map (· == name)
    rw [List.map_cons, List.map_cons, List.map_cons, List.map_nil, beq_self_eq_true,
      beq_false_of_ne hne] at hmap
    exact h hmap

/-- Writing a section as it is changes nothing if it stands in one piece. -/
theorem replaceSection_within (name : Str) (stmts : List (Str × Str)) :
    replaceSection name (within (name == []) (marked (start name) stmts)) stmts = stmts ↔
      ∀ other, [name, other, name].Sublist ([] :: labels [] stmts) → other = name := by
  rw [sublist_map_iff, List.map_cons, labels_flags, replaceSection]
  by_cases hname : name = []
  · subst hname
    rw [if_pos rfl, beq_self_eq_true, replaced_done, List.cons_sublist_cons]
    exact within_others (start []) stmts true
  · have hleft : (name == []) = false := beq_false_of_ne hname
    have hright : (([] : Str) == name) = false := beq_false_of_ne (Ne.symm hname)
    have hskip : [true, false, true].Sublist (false :: flags false (stmts.map (start name))) ↔
        [true, false, true].Sublist (flags false (stmts.map (start name))) := by
      refine ⟨fun h => ?_, fun h => h.cons _⟩
      cases h with
      | cons _ h => exact h
    rw [if_neg hname, hleft, hright, List.nil_append, hskip]
    exact replaced_within (start name) stmts

theorem again_eq {r : Row} (h : r.Ok) : r.again = r.stmt ↔ Plain r.para := by
  rw [← cut_eq_self h.option, Row.again, Row.stmt, Prod.mk.injEq]
  exact and_iff_right rfl

theorem map_again (hplain : ∀ r ∈ config.rows, Plain r.para) (mark : Row → Option Bool) :
    config.rows.map (fun r => (mark r, r.again)) = config.rows.map fun r => (mark r, r.stmt) :=
  List.map_congr_left fun r hr => by rw [(again_eq (row_ok hr)).mpr (hplain r hr)]

theorem seen_eq (hplain : ∀ r ∈ config.rows, Plain r.para)
    (hagree : ∀ r ∈ config.rows, r.netcmd = interface → (mangle r.written = name ↔ mangle r.para = name))
    (hnamed : ∀ r ∈ config.rows, r.netcmd = interface → mangle r.para = mangle name → mangle name = name) :
    config.rows.map (seen name) = marked (start name) (statements config.text) ∧
      config.rows.map (seen name) = marked (start (mangle name)) (statements config.text) := by
  have hstart : ∀ r ∈ config.rows, start name (r.netcmd, r.written) = start name r.stmt ∧
      start name (r.netcmd, r.written) = start (mangle name) r.stmt := by
    intro r hr
    rw [start, start, start, Row.stmt]
    by_cases hcmd : r.netcmd = interface
    · have hagree := hagree r hr hcmd
      have hsame : mangle r.para = name ↔ mangle r.para = mangle name := by
        constructor
        · intro heq
          rw [← heq, mangle_idem]
        · exact fun heq => heq.trans (hnamed r hr hcmd heq)
      rw [if_pos hcmd, if_pos hcmd, if_pos hcmd]
      constructor
      · refine congrArg some ?_
        rw [Bool.eq_iff_iff, beq_iff_eq, beq_iff_eq]
        exact hagree
      · refine congrArg some ?_
        rw [Bool.eq_iff_iff, beq_iff_eq, beq_iff_eq]
        exact hagree.trans hsame
    · rw [if_neg hcmd, if_neg hcmd, if_neg hcmd]
      exact ⟨rfl, rfl⟩
  rw [statements_text, marked, marked, List.map_map, List.map_map]
  constructor
  · refine List.map_congr_left fun r hr => ?_
    rw [seen, (hstart r hr).1, (again_eq (row_ok hr)).mpr (hplain r hr)]
    rfl
  · refine List.map_congr_left fun r hr => ?_
    rw [seen, (hstart r hr).2, (again_eq (row_ok hr)).mpr (hplain r hr)]
    rfl

/-- What the tags of `read_section` are when no parameter is changed. -/
theorem read_tags (hplain : ∀ r ∈ config.rows, Plain r.para) :
    within (name == []) (config.rows.map fun r => (start name r.stmt, r.again)) =
      within (name == []) (marked (start name) (statements config.text)) := by
  rw [map_again hplain, statements_text, marked, List.map_map]
  rfl

theorem Safe.rewrites (h : Safe config name) : Rewrites config name := by
  obtain ⟨hseen, hmangled⟩ := seen_eq h.plain h.agree h.named
  constructor
  · obtain ⟨tags, htext, hread⟩ := exists_tags config name
    rw [← htext, statements_writeSection, hread, read_tags h.plain, hseen]
    exact (replaceSection_within name _).mpr h.together
  · intro tags
    rw [statements_writeSection, hmangled, replaceSection, mangle_beq_nil]
    by_cases hname : name = []
    · subst hname
      rfl
    · have hmangle : mangle name ≠ [] := fun hnil => hname (List.map_eq_nil_iff.mp hnil)
      rw [if_neg hname, if_neg hmangle]

/-- A statement whose parameters change is not written, unless longer ones are cut to it. -/
theorem plain_of_kept (h : statements (writeSection config.text name (readSection config.text name).tags) =
    statements config.text) : ∀ r ∈ config.rows, Plain r.para := by
  have hlonger : ∀ r ∈ config.rows, ¬Plain r.para →
      ∃ r' ∈ config.rows, ¬Plain r'.para ∧ r.para.length < r'.para.length := by
    intro r hr hbad
    obtain ⟨tags, htext, hread⟩ := exists_tags config name
    have hmem : r.stmt ∈ statements config.text := by
      rw [statements_text]
      exact List.mem_map_of_mem hr
    rw [← h, ← htext, statements_writeSection, hread] at hmem
    have hwithin : ∀ s ∈ within (name == []) (config.rows.map fun r => (start name r.stmt, r.again)),
        ∃ r' ∈ config.rows, s = r'.again := by
      intro s hs
      obtain ⟨m, hm⟩ := mem_within hs
      obtain ⟨r', hr', heq⟩ := List.mem_map.mp hm
      exact ⟨r', hr', (Prod.mk.inj heq).2.symm⟩
    have hagain : ∃ r' ∈ config.rows, r.stmt = r'.again := by
      rcases List.mem_append.mp hmem with hmem | hmem
      · split at hmem
        · exact hwithin _ hmem
        · cases hmem
      · rcases mem_replaced hmem with hmem | ⟨m, hm⟩
        · exact hwithin _ hmem
        · obtain ⟨r', hr', heq⟩ := List.mem_map.mp hm
          exact ⟨r', hr', (Prod.mk.inj heq).2.symm⟩
    obtain ⟨r', hr', heq⟩ := hagain
    have hpara : r.para = cut r'.para := (Prod.mk.inj heq).2
    have hok := row_ok hr'
    rcases length_cut r'.para with hlt | hsame
    · rw [← hpara] at hlt
      refine ⟨r', hr', fun hplain => ?_, hlt⟩
      rw [hpara, (cut_eq_self hok.option).mpr hplain] at hlt
      exact Nat.lt_irrefl _ hlt
    · rw [hsame] at hpara
      rw [hpara] at hbad
      exact absurd ((cut_eq_self hok.option).mp hsame) hbad
  intro r hr
  by_contra hbad
  have hall : ∀ n, ∃ r' ∈ config.rows, ¬Plain r'.para ∧ n ≤ r'.para.length := by
    intro n
    induction n with
    | zero => exact ⟨r, hr, hbad, Nat.zero_le _⟩
    | succ n ih =>
      obtain ⟨r', hr', hbad', hle⟩ := ih
      obtain ⟨r'', hr'', hbad'', hlt⟩ := hlonger r' hr' hbad'
      exact ⟨r'', hr'', hbad'', by omega⟩
  have hbound : ∀ rows : List Row, ∃ n, ∀ r ∈ rows, r.para.length < n := by
    intro rows
    induction rows with
    | nil => exact ⟨0, fun _ h => absurd h List.not_mem_nil⟩
    | cons r rows ih =>
      obtain ⟨n, hn⟩ := ih
      refine ⟨n + (r.para.length + 1), List.forall_mem_cons.mpr ⟨by omega, fun r hr => ?_⟩⟩
      have hlt := hn r hr
      omega
  obtain ⟨n, hn⟩ := hbound config.rows
  obtain ⟨r', hr', -, hle⟩ := hall n
  have hlt := hn r' hr'
  omega

theorem start_false {netcmd : Str} (h : netcmd = interface) (name para : Str) :
    start name (netcmd, para) = some false ↔ mangle para ≠ name := by
  rw [start, if_pos h, Option.some.injEq, beq_eq_false_iff_ne]

/-- Every section that is left out is the one that is named. -/
theorem agree_of_replaced (hplain : ∀ r ∈ config.rows, Plain r.para)
    (h : statements (writeSection config.text name []) =
    replaceSection (mangle name) [] (statements config.text)) :
    ∀ r ∈ config.rows, r.netcmd = interface → (mangle r.written = name ↔ mangle r.para = mangle name) := by
  have hothers : others (name == []) (config.rows.map fun r => (start name (r.netcmd, r.written), r.stmt)) =
      others (name == []) (config.rows.map fun r => (start (mangle name) r.stmt, r.stmt)) := by
    have hwritten := statements_writeSection config name []
    rw [List.map_nil, h, replaceSection, mangle_beq_nil, List.filterMap_nil, replaced_nil, replaced_nil,
      ite_self,
      ite_self, List.nil_append, List.nil_append, statements_text, marked, List.map_map] at hwritten
    rw [← map_again hplain fun r => start name (r.netcmd, r.written)]
    exact hwritten.symm
  have hcounts : ∀ q : Str × Str → Bool, (∀ s, q s = true → s.1 = interface) →
      (config.rows.countP fun r => q r.stmt && start name (r.netcmd, r.written) == some false) =
        config.rows.countP fun r => q r.stmt && start (mangle name) r.stmt == some false := by
    intro q hq
    have hcount := congrArg (List.countP q) hothers
    rw [countP_others, countP_others, List.countP_map, List.countP_map] at hcount
    · exact hcount
    · intro s hs hqs
      obtain ⟨r, -, rfl⟩ := List.mem_map.mp hs
      rw [start, if_pos (hq _ hqs)]
      rfl
    · intro s hs hqs
      obtain ⟨r, -, rfl⟩ := List.mem_map.mp hs
      have hcmd : r.netcmd = interface := hq _ hqs
      rw [start, if_pos hcmd]
      rfl
  have hdropped : ∀ r ∈ config.rows, r.netcmd = interface → mangle r.para = mangle name →
    mangle r.written = name := by
    intro r hr hcmd hpara
    have hzero := hcounts (fun s => s.1 == interface && mangle s.2 == mangle name) fun s hs =>
      eq_of_beq (Bool.and_eq_true_iff.mp hs).1
    have hnone : (config.rows.countP fun r => (r.stmt.1 == interface && mangle r.stmt.2 == mangle name) &&
        start (mangle name) r.stmt == some false) = 0 := by
      rw [List.countP_eq_zero]
      intro r hr hall
      rw [Bool.and_eq_true, Bool.and_eq_true, beq_iff_eq, beq_iff_eq, beq_iff_eq] at hall
      rw [start, if_pos hall.1.1, hall.1.2, beq_self_eq_true] at hall
      cases hall.2
    rw [hnone, List.countP_eq_zero] at hzero
    by_contra hne
    refine hzero r hr ?_
    rw [Bool.and_eq_true, Bool.and_eq_true, beq_iff_eq, beq_iff_eq, beq_iff_eq]
    exact ⟨⟨hcmd, hpara⟩, (start_false hcmd _ _).mpr hne⟩
  intro r hr hcmd
  refine ⟨fun hwritten => ?_, hdropped r hr hcmd⟩
  have hheaders := hcounts (fun s => s.1 == interface) fun s hs => eq_of_beq hs
  have hfewer : ∀ r ∈ config.rows,
      (r.stmt.1 == interface && start name (r.netcmd, r.written) == some false) = true →
        (r.stmt.1 == interface && start (mangle name) r.stmt == some false) = true := by
    intro r hr h
    rw [Bool.and_eq_true, beq_iff_eq, beq_iff_eq] at h ⊢
    have hne := (start_false h.1 _ _).mp h.2
    exact ⟨h.1, (start_false h.1 _ _).mpr fun hpara => hne (hdropped r hr h.1 hpara)⟩
  have hequal := eq_of_countP hfewer hheaders.symm r hr
  by_contra hne
  have hkept : (r.stmt.1 == interface && start (mangle name) r.stmt == some false) = true := by
    rw [Bool.and_eq_true, beq_iff_eq, beq_iff_eq]
    exact ⟨hcmd, (start_false hcmd _ _).mpr hne⟩
  rw [hequal, Bool.and_eq_true, beq_iff_eq, beq_iff_eq] at hkept
  exact (start_false hcmd _ _).mp hkept.2 hwritten

theorem Rewrites.safe (h : Rewrites config name) : Safe config name := by
  have hplain := plain_of_kept h.kept
  have hagree := agree_of_replaced hplain (h.replaced [])
  have hnamed : ∀ r ∈ config.rows, r.netcmd = interface → mangle r.para = mangle name →
    mangle name = name := by
    intro r hr hcmd hpara
    have hwritten := (hagree r hr hcmd).mpr hpara
    rw [← hwritten, mangle_idem]
  have hsame : ∀ r ∈ config.rows, r.netcmd = interface →
    (mangle r.written = name ↔ mangle r.para = name) := by
    intro r hr hcmd
    constructor
    · intro hwritten
      have hpara := (hagree r hr hcmd).mp hwritten
      rw [hpara]
      exact hnamed r hr hcmd hpara
    · intro hpara
      refine (hagree r hr hcmd).mpr ?_
      rw [← hpara, mangle_idem]
  refine ⟨hsame, hplain, (replaceSection_within name _).mp ?_, hnamed⟩
  obtain ⟨tags, htext, hread⟩ := exists_tags config name
  have hkept := h.kept
  rw [← htext, statements_writeSection, hread, read_tags hplain, (seen_eq hplain hsame hnamed).1] at hkept
  exact hkept

/-- Exactly for these files and names a section is rewritten as it should be. -/
theorem rewrites_iff (config : Config) (name : Str) : Rewrites config name ↔ Safe config name :=
  ⟨Rewrites.safe, Safe.rewrites⟩

def mainConfig : Config where
  lines := [
    ⟨"interface eth0 # main".toList, by decide, by decide, by decide +kernel, by decide +kernel⟩,
    ⟨"\tdhcp".toList, by decide, by decide, by decide +kernel, by decide +kernel⟩]
  rest := []
  free := by decide

/-- With a comment behind its name, an interface is written once more behind what there is of it. -/
theorem comment_appended : ¬∀ (config : Config) (name : Str), Rewrites config name := by
  intro h
  have hkept := (h mainConfig "eth0".toList).kept
  revert hkept
  decide +kernel

end Rewriting

end T2SDE.Network
