import T2SDE.Lib.Echo
import T2SDE.Lib.ShellRead

namespace T2SDE.Network

open Text ShellRead Echo

section Functions

def stripRest : Str → Str
  | [] => []
  | c :: s => if isBlank c = true ∧ s.head? = some '#' then [] else c :: stripRest s

/-- `s,\(^\|[ \t]\)#.*$,,` -/
def stripComment (line : Str) : Str := if line.head? = some '#' then [] else stripRest line

/-- `sed` with this command, with what is read so far of a line. -/
def sed (line : Str) : Str → Str
  | [] => stripComment line
  | c :: s => if c = '\n' then stripComment line ++ '\n' :: sed [] s else sed (line ++ [c]) s

def special (c : Char) : Bool := c == '\\' || c == '*' || c == '?'

/-- `s,[\*\?],\\&,g` -/
def escapePara (para : Str) : Str := ShellRead.escape special para

/-- `$( echo "$para" )` -/
def echoed (para : Str) : Str := if isOption para then [] else para

/-- What the loops over a file make of the two variables, unless the command is empty. -/
def entry (fields : Str × Str) : Option (Str × Str) :=
  if fields.1 = [] then none
  else some (fields.1.map fun c => if c = '-' then '_' else c, escapePara (echoed fields.2))

def entries (text : Str) : List (Str × Str) :=
  (readLines [] text).filterMap fun line => entry (readFields line)

def interface : Str := "interface".toList

/-- `s,[(),],_,g` -/
def mangle (para : Str) : Str := para.map fun c => if c = '(' || c = ')' || c = ',' then '_' else c

/-- The array and the list that `read_section` fills. -/
structure Section where
  tags : List Str
  interfaces : Str

/-- The loop of `read_section`. -/
def readLoop (name : Str) (readit : Bool) : List (Str × Str) → Section
  | [] => ⟨[], []⟩
  | (netcmd, para) :: rest =>
    let prof := mangle para
    let readit := if netcmd = interface then prof == name else readit
    let below := readLoop name readit rest
    ⟨if readit then (netcmd ++ ' ' :: para) :: below.tags else below.tags,
      if netcmd = interface then ' ' :: prof ++ below.interfaces else below.interfaces⟩

def readSection (config name : Str) : Section := readLoop name (name == []) (entries (sed [] config))

def writeTags (globals : Bool) : List Str → Str
  | [] => []
  | tag :: tags =>
    if tag = [] then writeTags globals tags
    else (if !globals && !interface.isPrefixOf tag then ['\t'] else []) ++ plainEcho tag ++
    writeTags globals tags

/-- The loop of `write_section`, and what is written behind it. -/
def writeLoop (name : Str) (tags : List Str) (globals passit dumped : Bool) : List (Str × Str) → Str
  | [] => (if globals then [] else ['\n']) ++ if dumped then [] else writeTags (globals && name == []) tags
  | (netcmd, para) :: rest =>
    let dump := !passit && !dumped
    (if dump then writeTags globals tags else []) ++
      if netcmd = interface then
        let passit := mangle para != name
        '\n' :: (if passit then plainEcho (netcmd ++ ' ' :: para) else []) ++
          writeLoop name tags false passit (dumped || dump) rest
      else
        (if passit then (if globals then [] else ['\t']) ++ plainEcho (netcmd ++ ' ' :: para) else []) ++
          writeLoop name tags globals passit (dumped || dump) rest

/-- What `write_section` leaves in the file. -/
def writeSection (config name : Str) (tags : List Str) : Str :=
  writeLoop name tags true (name != []) false (entries config)

end Functions

section Format

/-- A line of a file: it does not go on in the next one, with its comment or without, and its
command stands there as it is. -/
structure Line where
  text : Str
  free : '\n' ∉ text
  raw : whole text = true
  stripped : whole (stripComment text) = true
  command : '\\' ∉ ((stripComment text).dropWhile isBlank).takeWhile (!isBlank ·)

def textOf (lines : List Line) : Str := lines.flatMap fun l => l.text ++ ['\n']

/-- The statement of a line without its comment. -/
def readText (text : Str) : Option (Str × Str) := entry (readFields (items (stripComment text)))

def Line.read (l : Line) : Option (Str × Str) := readText l.text

/-- What `write_section` takes for the statement. -/
def Line.written (l : Line) : Option (Str × Str) := entry (readFields (items l.text))

/-- The statements of a file, as rocknet reads them. -/
def statements (config : Str) : List (Str × Str) := entries (sed [] config)

end Format

section Texts

variable {l s : Str}

theorem sed_line (hl : '\n' ∉ l) (line s : Str) :
    sed line (l ++ '\n' :: s) = stripComment (line ++ l) ++ '\n' :: sed [] s := by
  induction l generalizing line with
  | nil => rw [List.nil_append, sed, if_pos rfl, List.append_nil]
  | cons c l ih =>
    rw [List.mem_cons, not_or] at hl
    rw [List.cons_append, sed, if_neg (Ne.symm hl.1), ih hl.2, List.append_assoc, List.singleton_append]

theorem stripRest_prefix (s : Str) : stripRest s <+: s := by
  induction s with
  | nil => exact List.nil_prefix
  | cons c s ih =>
    rw [stripRest]
    split
    · exact List.nil_prefix
    · exact List.cons_prefix_cons.mpr ⟨rfl, ih⟩

theorem stripComment_isPrefix (s : Str) : stripComment s <+: s := by
  rw [stripComment]
  split
  · exact List.nil_prefix
  · exact stripRest_prefix s

theorem filterMap_cons_toList {α β : Type} (f : α → Option β) (a : α) (xs : List α) :
    (a :: xs).filterMap f = (f a).toList ++ xs.filterMap f := by
  cases h : f a with
  | none => rw [List.filterMap_cons_none h]; rfl
  | some b => rw [List.filterMap_cons_some h]; rfl

theorem entries_line (hl : '\n' ∉ l) (hwhole : whole l = true) (s : Str) :
    entries (l ++ '\n' :: s) = (entry (readFields (items l))).toList ++ entries s := by
  rw [entries, readLines_line hl hwhole, List.nil_append, filterMap_cons_toList]
  rfl

theorem statements_line (hl : '\n' ∉ l) (hwhole : whole (stripComment l) = true) (s : Str) :
    statements (l ++ '\n' :: s) = (readText l).toList ++ statements s := by
  have hfree : '\n' ∉ stripComment l := fun hmem => hl ((stripComment_isPrefix l).subset hmem)
  rw [statements, sed_line hl, List.nil_append, entries_line hfree hwhole]
  rfl

theorem sed_rest (hs : '\n' ∉ s) (line : Str) : sed line s = stripComment (line ++ s) := by
  induction s generalizing line with
  | nil => rw [sed, List.append_nil]
  | cons c s ih =>
    rw [List.mem_cons, not_or] at hs
    rw [sed, if_neg (Ne.symm hs.1), ih hs.2, List.append_assoc, List.singleton_append]

/-- What stands behind the last newline is not read. -/
theorem entries_rest (hs : '\n' ∉ s) : entries s = [] ∧ statements s = [] := by
  have hstrip : '\n' ∉ stripComment s := fun hmem => hs ((stripComment_isPrefix s).subset hmem)
  rw [statements, sed_rest hs, List.nil_append, entries, entries, readLines_rest hs, readLines_rest hstrip]
  exact ⟨rfl, rfl⟩

theorem entries_textOf (lines : List Line) (hs : '\n' ∉ s) :
    entries (textOf lines ++ s) = lines.filterMap Line.written := by
  induction lines with
  | nil => exact (entries_rest hs).1
  | cons l lines ih =>
    rw [textOf, List.flatMap_cons, List.append_assoc, List.append_assoc, List.singleton_append, ← textOf,
      entries_line l.free l.raw, ih, filterMap_cons_toList]
    rfl

theorem statements_textOf (lines : List Line) (hs : '\n' ∉ s) :
    statements (textOf lines ++ s) = lines.filterMap Line.read := by
  induction lines with
  | nil => exact (entries_rest hs).2
  | cons l lines ih =>
    rw [textOf, List.flatMap_cons, List.append_assoc, List.append_assoc, List.singleton_append, ← textOf,
      statements_line l.free l.stripped, ih, filterMap_cons_toList]
    rfl

end Texts

section Comments

variable {c b : Char} {u s t x : Str}

theorem blank_ne {c : Char} (hc : isBlank c = true) : c ≠ '#' ∧ c ≠ '\\' ∧ special c = false := by
  rw [isBlank, Bool.or_eq_true, beq_iff_eq, beq_iff_eq] at hc
  rcases hc with rfl | rfl
  · decide
  · decide

theorem stripRest_plain (hu : ∀ c ∈ u, isBlank c = false) (t : Str) :
    stripRest (u ++ t) = u ++ stripRest t := by
  induction u with
  | nil => rfl
  | cons c u ih =>
    rw [List.forall_mem_cons] at hu
    rw [List.cons_append, stripRest, if_neg (by simp [hu.1]), ih hu.2, List.cons_append]

theorem head_stripRest (s : Str) : (stripRest s).head? = some '#' → s.head? = some '#' := by
  cases s with
  | nil => exact id
  | cons c s =>
    rw [stripRest]
    split
    · exact fun h => by cases h
    · exact id

theorem stripRest_idem (s : Str) : stripRest (stripRest s) = stripRest s := by
  induction s with
  | nil => rfl
  | cons c s ih =>
    rw [stripRest]
    split
    next => rfl
    next h =>
      rw [stripRest, ih, if_neg]
      exact fun hboth => h ⟨hboth.1, head_stripRest s hboth.2⟩

theorem stripComment_idem (s : Str) : stripComment (stripComment s) = stripComment s := by
  rw [stripComment, stripComment]
  split
  next => rfl
  next h =>
    rw [if_neg fun hhead => h (head_stripRest s hhead)]
    exact stripRest_idem s

/-- Behind blanks alone, a `#` leaves nothing else of a line. -/
theorem dropWhile_stripComment (h : (s.dropWhile isBlank).head? = some '#') :
    (stripComment s).dropWhile isBlank = [] := by
  have hall : ∀ t : Str, t.head? ≠ some '#' → (t.dropWhile isBlank).head? = some '#' →
      (stripRest t).dropWhile isBlank = [] := by
    intro t
    induction t with
    | nil => exact fun _ _ => rfl
    | cons c t ih =>
      intro hhead hdrop
      by_cases hc : isBlank c = true
      · rw [List.dropWhile_cons_of_pos hc] at hdrop
        rw [stripRest]
        split
        next => rfl
        next hnot => rw [List.dropWhile_cons_of_pos hc, ih (fun h => hnot ⟨hc, h⟩) hdrop]
      · rw [List.dropWhile_cons_of_neg hc] at hdrop
        exact absurd hdrop hhead
  rw [stripComment]
  split
  next => rfl
  next hhead => exact hall s hhead h

/-- How a line ends in a comment. -/
theorem stripRest_spec (s : Str) : stripRest s = s ∨
    ∃ b c, isBlank b = true ∧ s = stripRest s ++ b :: '#' :: c := by
  induction s with
  | nil => exact .inl rfl
  | cons a s ih =>
    rw [stripRest]
    split
    next h =>
      obtain ⟨c, rfl⟩ := List.head?_eq_some_iff.mp h.2
      exact .inr ⟨a, c, h.1, rfl⟩
    next =>
      rcases ih with h | ⟨b, c, hb, h⟩
      · exact .inl (congrArg (a :: ·) h)
      · exact .inr ⟨b, c, hb, congrArg (a :: ·) h⟩

theorem stripRest_comment (hb : isBlank b = true) (x c : Str) :
    stripRest (x ++ b :: '#' :: c) = stripRest x := by
  induction x with
  | nil => exact if_pos ⟨hb, rfl⟩
  | cons a x ih =>
    have hhead : (x ++ b :: '#' :: c).head? = some '#' ↔ x.head? = some '#' := by
      cases x with
      | nil => simp [(blank_ne hb).1]
      | cons d x => exact Iff.rfl
    rw [List.cons_append, stripRest, stripRest, ih]
    simp only [hhead]

theorem stripRest_blanks (hu : ∀ c ∈ u, isBlank c = true) (x : Str) :
    ∃ v, (∀ c ∈ v, isBlank c = true) ∧ stripRest (x ++ u) = stripRest x ++ v := by
  induction x with
  | nil =>
    refine ⟨u, hu, ?_⟩
    have hstrip : ∀ u : Str, (∀ c ∈ u, isBlank c = true) → stripRest u = u := by
      intro u hu
      induction u with
      | nil => rfl
      | cons c u ih =>
        rw [List.forall_mem_cons] at hu
        rw [stripRest, ih hu.2, if_neg]
        rintro ⟨-, hhead⟩
        exact (blank_ne (hu.2 _ (List.mem_of_head? hhead))).1 rfl
    exact hstrip u hu
  | cons a x ih =>
    have hhead : (x ++ u).head? = some '#' ↔ x.head? = some '#' := by
      cases x with
      | nil => exact iff_of_false (fun h => (blank_ne (hu _ (List.mem_of_head? h))).1 rfl) fun h => by cases h
      | cons d x => exact Iff.rfl
    obtain ⟨v, hv, hstrip⟩ := ih
    rw [List.cons_append, stripRest, stripRest, hstrip]
    simp only [hhead]
    split
    next => exact ⟨[], fun _ h => absurd h List.not_mem_nil, rfl⟩
    next => exact ⟨v, hv, rfl⟩

theorem escapePara_cons (c : Char) (s : Str) :
    escapePara (c :: s) = (if special c then ['\\', c] else [c]) ++ escapePara s := rfl

theorem head_escape (s : Str) : (escapePara s).head? = some '#' ↔ s.head? = some '#' := by
  cases s with
  | nil => exact Iff.rfl
  | cons c s =>
    rw [escapePara_cons]
    split
    next h =>
      refine iff_of_false (fun hhead => by cases hhead) fun hhead => ?_
      rw [List.head?_cons, Option.some.injEq] at hhead
      subst hhead
      cases h
    next => exact Iff.rfl

/-- Escaping does not make a comment, and does not hide one. -/
theorem stripRest_escape (s : Str) : stripRest (escapePara s) = escapePara (stripRest s) := by
  induction s with
  | nil => rfl
  | cons c s ih =>
    rw [escapePara_cons]
    by_cases hc : special c = true
    · have hblank : isBlank c = false := by
        by_contra h
        rw [Bool.not_eq_false] at h
        rw [(blank_ne h).2.2] at hc
        cases hc
      rw [if_pos hc, List.cons_append, List.singleton_append, stripRest,
        if_neg (fun h => absurd h.1 (by decide)), stripRest, if_neg (by simp [hblank]), ih, stripRest,
        if_neg (by simp [hblank]), escapePara_cons, if_pos hc]
      rfl
    · rw [if_neg hc, List.singleton_append, stripRest, stripRest, ih]
      simp only [head_escape]
      split
      next => rfl
      next => rw [escapePara_cons, if_neg hc, List.singleton_append]

end Comments

section Fields

variable {pre cmd rest line : List Item} {s p q : Str}

def trim (s : Str) : Str := (s.dropWhile isBlank).rdropWhile isBlank

/-- What is read again of a parameter that has been written. -/
def cut (para : Str) : Str := echoed (trim (stripComment para))

theorem trim_items (p : Str) :
    ((((p.map fun c => (c, special c)).dropWhile isSep).rdropWhile isSep).map Prod.fst : Str) = trim p := by
  have hsep : isSep ∘ (fun c => (c, special c)) = isBlank := by
    funext c
    by_cases hc : isBlank c = true
    · simp [isSep, hc, (blank_ne hc).2.2]
    · simp [isSep, hc]
  have hfst : Prod.fst ∘ (fun c => (c, special c)) = id := rfl
  rw [List.dropWhile_map, hsep, List.rdropWhile, ← List.map_reverse, List.dropWhile_map, hsep,
    ← List.map_reverse,
    List.map_map, hfst, List.map_id, trim, List.rdropWhile]

theorem escapePara_append (p q : Str) : escapePara (p ++ q) = escapePara p ++ escapePara q :=
  List.flatMap_append

theorem escapePara_inj (h : escapePara p = escapePara q) : p = q := by
  have hitems := congrArg items h
  rw [escapePara, escapePara, (items_escape rfl p).1, (items_escape rfl q).1] at hitems
  have hfst := congrArg (List.map Prod.fst) hitems
  rwa [List.map_map, List.map_map, show Prod.fst ∘ (fun c => (c, special c)) = id from rfl, List.map_id,
    List.map_id] at hfst

theorem stripComment_escape (p : Str) : stripComment (escapePara p) = escapePara (stripComment p) := by
  rw [stripComment, stripComment, stripRest_escape]
  simp only [head_escape]
  split
  next => rfl
  next => rfl

theorem trim_escape (p : Str) : trim (escapePara p) = escapePara (trim p) := by
  have hleft : ∀ p : Str, (escapePara p).dropWhile isBlank = escapePara (p.dropWhile isBlank) := by
    intro p
    induction p with
    | nil => rfl
    | cons c p ih =>
      rw [escapePara_cons]
      by_cases hc : isBlank c = true
      · rw [if_neg (by simp [(blank_ne hc).2.2]), List.singleton_append, List.dropWhile_cons_of_pos hc,
          List.dropWhile_cons_of_pos hc, ih]
      · rw [List.dropWhile_cons_of_neg hc, escapePara_cons]
        split
        next => exact List.dropWhile_cons_of_neg (by decide)
        next => exact List.dropWhile_cons_of_neg hc
  have hright : ∀ p : Str, (escapePara p).rdropWhile isBlank = escapePara (p.rdropWhile isBlank) := by
    intro p
    induction p using List.reverseRecOn with
    | nil => rfl
    | append_singleton p c ih =>
      rw [escapePara_append, List.rdropWhile_concat]
      by_cases hc : isBlank c = true
      · have hsingle : escapePara [c] = [c] := by
          rw [escapePara_cons, if_neg (by simp [(blank_ne hc).2.2])]
          rfl
        rw [if_pos hc, hsingle, List.rdropWhile_concat_pos _ _ _ hc, ih]
      · rw [if_neg hc, escapePara_append]
        have hlast : ∃ w, escapePara [c] = w ++ [c] := by
          rw [escapePara_cons]
          split
          next => exact ⟨['\\'], rfl⟩
          next => exact ⟨[], rfl⟩
        obtain ⟨w, hw⟩ := hlast
        rw [hw, ← List.append_assoc, List.rdropWhile_concat_neg _ _ _ hc]
  rw [trim, hleft, hright, trim]

/-- What `echo` prints again: no option, and nothing that `sed` or `read` takes away. -/
def Plain (para : Str) : Prop := stripComment para = para ∧ trim para = para

theorem isOption_echoed (s : Str) : isOption (echoed s) = false := by
  rw [echoed]
  split
  next => rfl
  next h => simpa using h

theorem trim_sublist (s : Str) : (trim s).Sublist s :=
  (List.rdropWhile_prefix isBlank _).sublist.trans (List.dropWhile_suffix isBlank).sublist

theorem echoed_sublist (s : Str) : (echoed s).Sublist s := by
  rw [echoed]
  split
  next => exact List.nil_sublist s
  next => exact List.Sublist.refl s

theorem cut_sublist (p : Str) : (cut p).Sublist p :=
  ((echoed_sublist _).trans (trim_sublist _)).trans (stripComment_isPrefix p).sublist

theorem cut_eq_self (h : isOption p = false) : cut p = p ↔ Plain p := by
  constructor
  · intro hcut
    have hlen := congrArg List.length hcut
    have hecho := (echoed_sublist (trim (stripComment p))).length_le
    have htrim := (trim_sublist (stripComment p)).length_le
    have hstrip : stripComment p = p := by
      refine (stripComment_isPrefix p).eq_of_length_le ?_
      rw [cut] at hlen
      omega
    rw [cut, hstrip] at hlen
    rw [hstrip] at hecho
    exact ⟨hstrip, (trim_sublist p).eq_of_length_le (by omega)⟩
  · rintro ⟨hstrip, htrim⟩
    rw [cut, hstrip, htrim, echoed, if_neg (by simp [h])]

/-- What is not read again as it was is read again shorter. -/
theorem length_cut (p : Str) : (cut p).length < p.length ∨ cut p = p := by
  rcases Nat.lt_or_ge (cut p).length p.length with hlt | hge
  · exact .inl hlt
  · exact .inr ((cut_sublist p).eq_of_length_le hge)

/-- The command of a statement, as it is written. -/
structure IsCommand (cmd : Str) : Prop where
  ne : cmd ≠ []
  plain : ∀ c ∈ cmd, isBlank c = false ∧ c ≠ '\\' ∧ c ≠ '-' ∧ c ≠ '\n'
  head : cmd.head? ≠ some '#'

theorem IsCommand.strip {cmd : Str} (h : IsCommand cmd) (p : Str) :
    stripComment (cmd ++ ' ' :: escapePara p) =
    cmd ++ if p.head? = some '#' then [] else ' ' :: escapePara (stripComment p) := by
  have hhead : ¬(cmd ++ ' ' :: escapePara p).head? = some '#' := by
    obtain ⟨c, cmd, rfl⟩ := List.exists_cons_of_ne_nil h.ne
    exact h.head
  rw [stripComment, if_neg hhead, stripRest_plain fun c hc => (h.plain c hc).1, stripRest]
  simp only [head_escape]
  by_cases hp : p.head? = some '#'
  · rw [if_pos ⟨rfl, hp⟩, if_pos hp]
  · rw [if_neg fun hboth => hp hboth.2, if_neg hp, stripRest_escape, stripComment, if_neg hp]

/-- A statement that has been written is read again with what is left of its parameters. -/
theorem IsCommand.readText {cmd : Str} (h : IsCommand cmd) (p : Str) :
    readText (cmd ++ ' ' :: escapePara p) = some (cmd, escapePara (cut p)) ∧
      whole (stripComment (cmd ++ ' ' :: escapePara p)) = true := by
  have hslash : '\\' ∉ cmd := fun hmem => (h.plain _ hmem).2.1 rfl
  obtain ⟨hitems, hwhole⟩ := items_plain hslash
  have hentry : ∀ q : Str, entry (cmd, q) = some (cmd, escapePara (echoed q)) := by
    intro q
    have hmap : (cmd.map fun c => if c = '-' then '_' else c) = cmd := by
      refine (List.map_congr_left fun c hc => if_neg (h.plain c hc).2.2.1).trans (List.map_id' cmd)
    rw [entry, if_neg h.ne, hmap]
  have hseps : ∀ i ∈ cmd.map (·, false), isSep i = false := by
    intro i hi
    obtain ⟨c, hc, rfl⟩ := List.mem_map.mp hi
    rw [isSep_plain]
    exact (h.plain c hc).1
  have hne : (cmd.map (·, false) : List Item) ≠ [] := fun hnil => h.ne (List.map_eq_nil_iff.mp hnil)
  have hfst : ((cmd.map (·, false) : List Item).map Prod.fst : Str) = cmd := by
    rw [List.map_map]
    exact List.map_id' cmd
  have hfields := fun rest hrest =>
    @readFields_command [] (cmd.map (·, false)) rest (fun _ h => absurd h List.not_mem_nil) hseps hne hrest
  simp only [List.nil_append, hfst] at hfields
  rw [Network.readText, h.strip]
  by_cases hp : p.head? = some '#'
  · have hnone : cut p = [] := by
      rw [cut, stripComment, if_pos hp]
      rfl
    have hread := hfields [] fun i hi => by cases hi
    rw [List.append_nil] at hread
    rw [if_pos hp, List.append_nil, hitems, hread, hentry, hnone]
    exact ⟨rfl, hwhole⟩
  · have hspace : (' ' : Char) ≠ '\\' := by decide
    have hread := hfields ((' ', false) :: (stripComment p).map fun c => (c, special c))
      fun i hi => by rw [← Option.some.inj hi]; rfl
    rw [List.dropWhile_cons_of_pos rfl, trim_items] at hread
    rw [if_neg hp, items_append hwhole, whole_append hwhole, items_cons hspace, whole_cons hspace, hitems,
      escapePara,
      (items_escape rfl _).1, (items_escape rfl _).2, hread, hentry]
    exact ⟨rfl, rfl⟩

/-- A tab in front makes no difference. -/
theorem readText_tab (t : Str) : readText ('\t' :: t) = readText t ∧
    whole (stripComment ('\t' :: t)) = whole (stripComment t) := by
  have htab : ('\t' : Char) ≠ '\\' := by decide
  have hstrip : stripComment ('\t' :: t) = stripRest ('\t' :: t) := if_neg (by simp)
  rw [readText, readText, hstrip, stripRest, stripComment]
  by_cases hhead : t.head? = some '#'
  · rw [if_pos ⟨rfl, hhead⟩, if_pos hhead]
    exact ⟨rfl, rfl⟩
  · rw [if_neg fun h => hhead h.2, if_neg hhead, items_cons htab, whole_cons htab, readFields_sep rfl]
    exact ⟨rfl, rfl⟩

/-- A comment is read as nothing. -/
theorem readText_comment {t : Str} (h : t.head? = some '#') :
    readText t = none ∧ whole (stripComment t) = true := by
  rw [readText, stripComment, if_pos h]
  exact ⟨rfl, rfl⟩

end Fields

section Statements

variable {l : Line} {u c p : Str} {cmd rest line : List Item}

theorem entry_none {fields : Str × Str} (h : fields.1 = []) : entry fields = none := if_pos h

theorem stripComment_spec (s : Str) : stripComment s = s ∨ (∃ c, s = '#' :: c ∧ stripComment s = []) ∨
    ∃ b c, isBlank b = true ∧ s = stripComment s ++ b :: '#' :: c := by
  rw [stripComment]
  split
  next h =>
    obtain ⟨c, rfl⟩ := List.head?_eq_some_iff.mp h
    exact .inr (.inl ⟨c, rfl, rfl⟩)
  next => exact (stripRest_spec s).imp_right .inr

theorem rdropWhile_keep {α : Type} {skip : α → Bool} {x : α} (hx : skip x = false) (v w : List α) :
    (v ++ x :: w).rdropWhile skip = v ++ x :: w.rdropWhile skip := by
  induction w using List.reverseRecOn with
  | nil => exact List.rdropWhile_concat_neg _ _ _ (by simp [hx])
  | append_singleton w y ih =>
    rw [← List.cons_append, ← List.append_assoc, List.rdropWhile_concat, List.rdropWhile_concat, ih]
    split
    next => rfl
    next => simp

theorem isSep_items (hu : ∀ c ∈ u, isBlank c = true) : ∀ i ∈ items u, isSep i = true := by
  have hslash : '\\' ∉ u := fun hmem => absurd (hu _ hmem) (by decide)
  rw [(items_plain hslash).1]
  intro i hi
  obtain ⟨c, hc, rfl⟩ := List.mem_map.mp hi
  rw [isSep_plain]
  exact hu c hc

/-- The first thing in the line is a comment. -/
theorem entry_comment (hline : ∀ i ∈ line, isSep i = true) (c : Str) (cmd para : Str)
    (h : entry (readFields (line ++ items ('#' :: c))) = some (cmd, para)) : cmd.head? = some '#' := by
  have hhash : ('#' : Char) ≠ '\\' := by decide
  have hfirst : ∃ w, (readFields (line ++ items ('#' :: c))).1 = '#' :: w := by
    rw [readFields, List.dropWhile_append_of_pos hline, items_cons hhash,
      List.dropWhile_cons_of_neg (by decide),
      List.takeWhile_cons_of_pos (by decide)]
    exact ⟨_, rfl⟩
  obtain ⟨w, hw⟩ := hfirst
  rw [entry, if_neg (by rw [hw]; exact List.cons_ne_nil _ _), hw] at h
  rw [← (Prod.mk.inj (Option.some.inj h)).1]
  rfl

theorem rdropWhile_blanks (hu : ∀ c ∈ u, isBlank c = true) (s : Str) :
    (s ++ u).rdropWhile isBlank = s.rdropWhile isBlank := by
  induction u using List.reverseRecOn with
  | nil => rw [List.append_nil]
  | append_singleton u c ih =>
    rw [← List.append_assoc, List.rdropWhile_concat_pos _ _ _ (hu c (by simp)), ih fun d hd =>
      hu d (by simp [hd])]

theorem trim_blanks (hu : ∀ c ∈ u, isBlank c = true) (s : Str) : trim (s ++ u) = trim s := by
  rw [trim, trim, List.dropWhile_append]
  split
  next h =>
    rw [List.isEmpty_iff] at h
    rw [h, List.dropWhile_eq_nil_iff.mpr hu]
  next => exact rdropWhile_blanks hu _

theorem isOption_letters {s : Str} (h : isOption s = true) :
    ∀ c ∈ s, c = '-' ∨ c = 'n' ∨ c = 'e' ∨ c = 'E' := by
  match s with
  | [] => exact fun _ h => absurd h List.not_mem_nil
  | [c] =>
    by_cases hc : c = '-'
    · subst hc
      cases h
    · rw [isOption] at h
      · cases h
      · exact fun _ _ heq => by cases heq
  | c :: d :: s =>
    by_cases hc : c = '-'
    · subst hc
      rw [isOption, List.all_eq_true] at h
      intro x hx
      rcases List.mem_cons.mp hx with rfl | hx
      · exact .inl rfl
      · have hletter := h x hx
        rw [Bool.or_eq_true, Bool.or_eq_true, beq_iff_eq, beq_iff_eq, beq_iff_eq, or_assoc] at hletter
        exact .inr hletter
    · rw [isOption] at h
      · cases h
      · exact fun _ _ heq => hc (List.cons.inj heq).1

theorem isOption_free {s : Str} (h : isOption s = true) : ∀ c ∈ s, isBlank c = false ∧ special c = false := by
  intro c hc
  rcases isOption_letters h c hc with rfl | rfl | rfl | rfl
  · exact ⟨rfl, rfl⟩
  · exact ⟨rfl, rfl⟩
  · exact ⟨rfl, rfl⟩
  · exact ⟨rfl, rfl⟩

theorem cut_echoed (s : Str) : cut (echoed s) = cut s := by
  rw [echoed]
  split
  next h =>
    have hfree := fun c hc => (isOption_free h c hc).1
    have hhead : ¬s.head? = some '#' := by
      intro hhead
      obtain ⟨w, rfl⟩ := List.head?_eq_some_iff.mp hhead
      cases h
    have hstrip : stripComment s = s := by
      have hplain := stripRest_plain hfree []
      rw [List.append_nil] at hplain
      rw [stripComment, if_neg hhead, hplain]
      exact List.append_nil s
    have hdrop : s.dropWhile isBlank = s := by
      cases s with
      | nil => rfl
      | cons c s => exact List.dropWhile_cons_of_neg (by simp [hfree c List.mem_cons_self])
    have htrim : trim s = s := by
      rw [trim, hdrop, List.rdropWhile_eq_self_iff]
      intro hne
      simp [hfree _ (List.getLast_mem hne)]
    have hright : cut s = [] := by
      rw [cut, hstrip, htrim, echoed, if_pos h]
    rw [hright]
    rfl
  next => rfl

theorem stripComment_comment {b : Char} (hb : isBlank b = true) (x c : Str) :
    stripComment (x ++ b :: '#' :: c) = stripComment x := by
  cases x with
  | nil =>
    rw [List.nil_append, stripComment, if_neg (by simp [(blank_ne hb).1]), stripRest, if_pos ⟨hb, rfl⟩]
    rfl
  | cons a x =>
    rw [stripComment, stripComment, stripRest_comment hb]
    rfl

theorem trim_stripComment (hu : ∀ c ∈ u, isBlank c = true) (x : Str) :
    trim (stripComment (x ++ u)) = trim (stripComment x) := by
  have hhead : (x ++ u).head? = some '#' ↔ x.head? = some '#' := by
    cases x with
    | nil => exact iff_of_false (fun h => (blank_ne (hu _ (List.mem_of_head? h))).1 rfl) fun h => by cases h
    | cons d x => exact Iff.rfl
  obtain ⟨v, hv, hstrip⟩ := stripRest_blanks hu x
  rw [stripComment, stripComment, hstrip]
  simp only [hhead]
  split
  next => rfl
  next => exact trim_blanks hv _

/-- The parameters with a comment behind them are cut to the same. -/
theorem cut_comment {b : Char} (hb : isBlank b = true) (rest : List Item) (c : Str) :
    cut (echoed ((((rest ++ items (b :: '#' :: c)).dropWhile isSep).rdropWhile isSep).map Prod.fst)) =
      cut (echoed (((rest.dropWhile isSep).rdropWhile isSep).map Prod.fst)) := by
  have hhash : ('#' : Char) ≠ '\\' := by decide
  have hsep : isSep ('#', false) = false := rfl
  rw [cut_echoed, cut_echoed, items_cons (blank_ne hb).2.1, items_cons hhash, List.dropWhile_append]
  split
  next h =>
    rw [List.isEmpty_iff] at h
    have hblank : isSep (b, false) = true := by
      rw [isSep_plain]
      exact hb
    have hkeep := rdropWhile_keep hsep [] (items c)
    rw [List.nil_append] at hkeep
    rw [h, List.dropWhile_cons_of_pos hblank, List.dropWhile_cons_of_neg (by decide), hkeep]
    rfl
  next h =>
    rw [List.isEmpty_iff] at h
    have hkeep := rdropWhile_keep hsep (rest.dropWhile isSep ++ [(b, false)]) (items c)
    rw [List.append_assoc, List.singleton_append] at hkeep
    have hblanks : ∀ c ∈ ((rest.dropWhile isSep).rtakeWhile isSep).map Prod.fst, isBlank c = true := by
      intro c hc
      obtain ⟨i, hi, rfl⟩ := List.mem_map.mp hc
      have hsep := List.mem_rtakeWhile_imp hi
      rw [isSep, Bool.and_eq_true] at hsep
      exact hsep.1
    have hsplit : ((rest.dropWhile isSep).rdropWhile isSep).map Prod.fst ++
        ((rest.dropWhile isSep).rtakeWhile isSep).map Prod.fst = (rest.dropWhile isSep).map Prod.fst := by
      rw [← List.map_append, List.rdropWhile_append_rtakeWhile]
    rw [hkeep, List.append_assoc, List.singleton_append, List.map_append, List.map_cons, List.map_cons,
      ← hsplit]
    rw [cut, cut, stripComment_comment hb, trim_stripComment hblanks]

/-- The parts of a line, as `read` takes it apart. -/
theorem exists_parts (s : Str) : ∃ pre word rest,
    s = pre ++ (word ++ rest) ∧ s.dropWhile isBlank = word ++ rest ∧
    (s.dropWhile isBlank).takeWhile (!isBlank ·) = word ∧ (∀ c ∈ pre, isBlank c = true) ∧
      (∀ c ∈ word, isBlank c = false) ∧ (∀ c, rest.head? = some c → isBlank c = true) ∧
      (word = [] → rest = []) := by
  refine ⟨s.takeWhile isBlank, (s.dropWhile isBlank).takeWhile (!isBlank ·),
    (s.dropWhile isBlank).dropWhile (!isBlank ·), ?_, ?_, rfl, ?_, ?_, ?_, ?_⟩
  · rw [List.takeWhile_append_dropWhile, List.takeWhile_append_dropWhile]
  · rw [List.takeWhile_append_dropWhile]
  · exact fun c hc => List.mem_takeWhile_imp hc
  · intro c hc
    simpa using List.mem_takeWhile_imp hc
  · intro c hc
    have hnot := List.head?_dropWhile_not (!isBlank ·) (s.dropWhile isBlank)
    rw [hc] at hnot
    simpa using hnot
  · intro hnil
    cases hdrop : s.dropWhile isBlank with
    | nil => rfl
    | cons c t =>
      have hc : isBlank c = false := by
        have hnot := List.head?_dropWhile_not isBlank s
        rw [hdrop] at hnot
        simpa using hnot
      rw [hdrop, List.takeWhile_cons_of_pos (by simp [hc])] at hnil
      cases hnil

/-- The fields of a line that starts with a command. -/
theorem entry_command {pre word rest : Str} {tail : List Item} (hpre : ∀ c ∈ pre, isBlank c = true)
    (hword : ∀ c ∈ word, isBlank c = false) (hne : word ≠ []) (hslash : '\\' ∉ word)
    (htail : ∀ i, (items rest ++ tail).head? = some i → isSep i = true) :
    entry (readFields (items (pre ++ (word ++ rest)) ++ tail)) =
    some (word.map fun c => if c = '-' then '_' else c,
      escapePara (echoed ((((items rest ++ tail).dropWhile isSep).rdropWhile isSep).map Prod.fst))) := by
  have hfree : '\\' ∉ pre := fun hmem => absurd (hpre _ hmem) (by decide)
  have hseps : ∀ i ∈ items word, isSep i = false := by
    rw [(items_plain hslash).1]
    intro i hi
    obtain ⟨c, hc, rfl⟩ := List.mem_map.mp hi
    rw [isSep_plain]
    exact hword c hc
  have hitems : items word ≠ [] := by
    rw [(items_plain hslash).1]
    exact fun hnil => hne (List.map_eq_nil_iff.mp hnil)
  have hfst : (items word).map Prod.fst = word := by
    rw [(items_plain hslash).1, List.map_map]
    exact List.map_id' word
  rw [items_append (items_plain hfree).2, items_append (items_plain hslash).2, List.append_assoc,
    List.append_assoc,
    readFields_command (isSep_items hpre) hseps hitems htail, hfst]
  exact if_neg hne

theorem head_items {s : Str} (h : ∀ d, s.head? = some d → isBlank d = true) :
    ∀ i, (items s).head? = some i → isSep i = true := by
  intro i hi
  cases s with
  | nil => cases hi
  | cons d s =>
    have hd := h d rfl
    rw [items_cons (blank_ne hd).2.1] at hi
    rw [← Option.some.inj hi, isSep_plain]
    exact hd

/-- A line is read as nothing, and written through as a comment or not at all; or it has a statement,
and what is written through is read as the same as the statement that is written. -/
theorem Line.cases (l : Line) :
    (l.read = none ∧ ∀ cmd para, l.written = some (cmd, para) → cmd.head? = some '#') ∨
      ∃ cmd p p', IsCommand cmd ∧ l.read = some (cmd, escapePara p) ∧ l.written = some (cmd, escapePara p') ∧
        cut p' = cut p ∧ isOption p = false := by
  obtain ⟨pre, word, rest, hcore, hdrop, htake, hpre, hword, hrest, hnil⟩ :=
    exists_parts (stripComment l.text)
  have hstripped := l.stripped
  have hslash := l.command
  rw [htake] at hslash
  by_cases hne : word = []
  · left
    have hblanks : ∀ i ∈ items (stripComment l.text), isSep i = true := by
      refine isSep_items ?_
      rw [hcore, hne, hnil hne, List.append_nil, List.append_nil]
      exact hpre
    refine ⟨entry_none (readFields_blank hblanks), fun cmd para hwritten => ?_⟩
    rw [Line.written] at hwritten
    rcases stripComment_spec l.text with h | ⟨c, h, -⟩ | ⟨b, c, hb, h⟩
    · rw [h] at hblanks
      rw [entry_none (readFields_blank hblanks)] at hwritten
      cases hwritten
    · rw [h] at hwritten
      have hnone : ∀ i ∈ ([] : List Item), isSep i = true := fun _ h => absurd h List.not_mem_nil
      exact entry_comment hnone c cmd para hwritten
    · rw [h, items_append hstripped, items_cons (blank_ne hb).2.1, ← List.singleton_append,
        ← List.append_assoc] at hwritten
      refine entry_comment (fun i hi => ?_) c cmd para hwritten
      rcases List.mem_append.mp hi with hi | hi
      · exact hblanks i hi
      · rw [List.mem_singleton.mp hi, isSep_plain]
        exact hb
  · right
    have hcommand : IsCommand (word.map fun c => if c = '-' then '_' else c) := by
      refine ⟨fun h => hne (List.map_eq_nil_iff.mp h), ?_, ?_⟩
      · intro c hc
        obtain ⟨d, hd, rfl⟩ := List.mem_map.mp hc
        have hfree : d ≠ '\n' := by
          rintro rfl
          refine l.free ((stripComment_isPrefix l.text).subset ?_)
          rw [hcore]
          exact List.mem_append_right _ (List.mem_append_left _ hd)
        have hback : d ≠ '\\' := fun h => hslash (h ▸ hd)
        split
        next => exact ⟨rfl, by decide, by decide, by decide⟩
        next hdash => exact ⟨hword d hd, hback, hdash, hfree⟩
      · intro hhead
        have hfirst : ((stripComment l.text).dropWhile isBlank).head? = some '#' := by
          obtain ⟨d, word, rfl⟩ := List.exists_cons_of_ne_nil hne
          rw [hdrop]
          rw [List.map_cons, List.head?_cons, Option.some.injEq] at hhead
          split at hhead
          next => cases hhead
          next => rw [← hhead]; rfl
        have hgone := dropWhile_stripComment hfirst
        rw [stripComment_idem, hdrop] at hgone
        exact hne (List.append_eq_nil_iff.mp hgone).1
    have hend : ∀ i, (items rest ++ []).head? = some i → isSep i = true := by
      rw [List.append_nil]
      exact head_items hrest
    have hread := entry_command hpre hword hne hslash hend
    rw [← hcore, List.append_nil, List.append_nil] at hread
    have hwritten : ∃ q, l.written = some (word.map fun c => if c = '-' then '_' else c,
      escapePara (echoed q)) ∧
        cut (echoed q) = cut (echoed ((((items rest).dropWhile isSep).rdropWhile isSep).map Prod.fst)) := by
      rw [Line.written]
      rcases stripComment_spec l.text with h | ⟨c, -, h⟩ | ⟨b, c, hb, h⟩
      · rw [h] at hread
        exact ⟨_, hread, rfl⟩
      · rw [h] at hcore
        exact absurd (List.append_eq_nil_iff.mp (List.append_eq_nil_iff.mp hcore.symm).2).1 hne
      · have hhead : ∀ i, (items rest ++ items (b :: '#' :: c)).head? = some i → isSep i = true := by
          intro i hi
          rw [List.head?_append, Option.or_eq_some_iff] at hi
          rcases hi with hi | ⟨-, hi⟩
          · exact head_items hrest i hi
          · rw [items_cons (blank_ne hb).2.1] at hi
            rw [← Option.some.inj hi, isSep_plain]
            exact hb
        have hline := entry_command hpre hword hne hslash hhead
        rw [← hcore, ← items_append hstripped, ← h] at hline
        exact ⟨_, hline, cut_comment hb (items rest) c⟩
    obtain ⟨q, hq, hcut⟩ := hwritten
    exact ⟨_, _, _, hcommand, hread, hq, hcut, isOption_echoed _⟩

end Statements

end T2SDE.Network
