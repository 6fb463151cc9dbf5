import T2SDE.QueueScan

namespace T2SDE.CheckDeps

open Text Awk

section Program

/-- The global variables that live from one call of `check_package` to the next. -/
structure Vars where
  present : Str
  errors : Str

def entryName (repository package : Str) : Str := repository ++ '/' :: package

/-- What is behind a match of `" \\[.\\]:" repository "/" package ":[^ ]*"` at the start of a text,
for names without operators of regular expressions. -/
def behindEntry (name s : Str) : Option Str :=
  if [' ', '['] <+: s ∧ ']' :: ':' :: name ++ [':'] <+: s.drop 3 then
    some ((s.drop (name.length + 6)).dropWhile (· != ' '))
  else none

def removeLoop (name : Str) : Nat → Str → Str
  | 0, s => s
  | _ + 1, [] => []
  | fuel + 1, c :: s =>
    match behindEntry name (c :: s) with
    | some rest => removeLoop name fuel rest
    | none => c :: removeLoop name fuel s

/-- The `gsub` that deletes what an earlier stage has found for a package. -/
def removeEntry (name errors : Str) : Str := removeLoop name errors.length errors

def depfile (stagelevel : Nat) (repository package : Str) : Str :=
  gsub "<package>".toList package (gsub "<repository>".toList repository
    (gsub "<stagelevel>".toList (digits stagelevel)
    "package/<repository>/<package>/<package>.cache".toList))

/-- What stands in front of the first missing dependency. -/
def head (stagelevel : Nat) (name : Str) : Str :=
  ' ' :: '[' :: digits stagelevel ++ ']' :: ':' :: name ++ [':']

/-- A dependency `a[c]`; the flag is `firstent`. -/
def checkDep (stagelevel : Nat) (name package present : Str) (st : Str × Bool) (dep : Str) : Str × Bool :=
  if dep = package then st
  else if index present (pad dep) then st
  else ((if st.2 then st.1 ++ head stagelevel name else st.1) ++ ':' :: dep, false)

def readDep (stagelevel : Nat) (name package present : Str) (st : Str × Bool) (depline : Str) : Str × Bool :=
  if field (split depline) 1 ≠ "[DEP]".toList then st
  else ((split depline).drop 1).foldl (checkDep stagelevel name package present) st

/-- `check_package`, with the lines of the files by their names. -/
def checkPackage (lines : Str → List Str) (stagelevel : Nat) (g : Vars) (pkgline : Str) : Vars :=
  let a := split pkgline
  if !index (field a 2) (digits stagelevel) then g
  else
    let repository := field a 4
    let package := field a 5
    let present := g.present ++ pad package
    if stagelevel < 2 then { g with present }
    else
      let name := entryName repository package
      { present,
        errors := ((lines (depfile stagelevel repository package)).foldl
          (readDep stagelevel name package present) (removeEntry name g.errors, true)).1 }

/-- The table of the dependencies that are not solved, behind the loop over the stages. -/
def checkDeps (lines : Str → List Str) (pkgList : List Str) : Str :=
  ((List.range 9).foldl (fun g stagelevel => pkgList.foldl (checkPackage lines stagelevel) g) ⟨[], []⟩).errors

/-- The table as it goes to `expand`. -/
def table (errors : Str) : Str :=
  gsub ":".toList " ".toList (gsub "::".toList "\t".toList (gsub " ".toList "\n".toList errors))

/-- The texts that are printed, the last one through `expand`. -/
def printed (lines : Str → List Str) (pkgList : List Str) : List Str :=
  let errors := checkDeps lines pkgList
  if errors = [] then []
  else ["\nThe following packages have dependencies which".toList, "are not solved before stage 9:\n".toList,
    "Stage Package                 Dependencies".toList, table errors]

end Program

section Purpose

def nameOf (j : Job) : Str := entryName j.repository j.package

variable (lines : Str → List Str)

def depsOf (j : Job) : List Str :=
  (lines (depfile j.stagelevel j.repository j.package)).flatMap fun depline =>
    if field (split depline) 1 ≠ "[DEP]".toList then [] else (split depline).drop 1

structure Entry where
  stagelevel : Nat
  name : Str
  missing : List Str

def Entry.text (e : Entry) : Str := head e.stagelevel e.name ++ e.missing.flatMap (':' :: ·)

/-- The line of the table for a package, behind the end of the line before. -/
def Entry.row (e : Entry) : Str :=
  '\n' :: '[' :: digits e.stagelevel ++ ']' :: ' ' :: e.name ++ '\t' :: [' '].intercalate e.missing

/-- The dependencies of a package that are not among the packages so far. -/
def entryOf (before : List Job) (j : Job) : Entry :=
  ⟨j.stagelevel, nameOf j,
    (depsOf lines j).filter fun d => d ≠ j.package ∧ d ∉ (before ++ [j]).map Job.package⟩

/-- The package comes again, at a stage from 2 on. -/
def again (rest : List Job) (name : Str) : Prop := ∃ k ∈ rest, 2 ≤ k.stagelevel ∧ nameOf k = name

instance (rest : List Job) (name : Str) : Decidable (again rest name) :=
  inferInstanceAs (Decidable (∃ k ∈ rest, 2 ≤ k.stagelevel ∧ nameOf k = name))

/-- The characters of a name that mean themselves in a regular expression. -/
def plainChar (c : Char) : Bool := c.isAlphanum || c == '-' || c == '_'

/-- The names of the packages are of such characters. -/
def Plain (pkgList : List Str) : Prop :=
  ∀ line ∈ pkgList, (field (split line) 4).all plainChar = true ∧ (field (split line) 5).all plainChar = true

end Purpose

section Words

variable {w s : Str} {i : Nat}

theorem split_word (hw : w ∈ split s) : w ≠ [] ∧ ' ' ∉ w := by
  have hmem := mem_tokens hw
  refine ⟨hmem.1, fun hc => ?_⟩
  have hblank := hmem.2 ' ' hc
  exact absurd hblank (by decide)

theorem blank_notMem_field (s : Str) (i : Nat) : ' ' ∉ field (split s) i := by
  rw [field, List.getD_eq_getElem?_getD]
  cases h : (split s)[i - 1]? with
  | none => exact List.not_mem_nil
  | some w => exact (split_word (List.mem_of_getElem? h)).2

theorem index_present {names : List Str} (hne : w ≠ []) (hw : ' ' ∉ w) (hnames : ∀ v ∈ names, ' ' ∉ v) :
    index (names.flatMap pad) (pad w) = decide (w ∈ names) := by
  rw [index, decide_eq_decide]
  constructor
  · exact mem_of_padded hne hw hnames
  · intro hmem
    obtain ⟨front, back, rfl⟩ := List.append_of_mem hmem
    exact ⟨front.flatMap pad, back.flatMap pad, by simp⟩

end Words

section Removal

variable {name rest s : Str} {e : Entry} {es : List Entry} {fuel : Nat}

/-- An entry of the table: a name without colons, and no blank but at its start. -/
structure Entry.Ok (e : Entry) : Prop where
  stage : e.stagelevel < 10
  name_colon : ':' ∉ e.name
  name_blank : ' ' ∉ e.name
  missing : ∀ m ∈ e.missing, ' ' ∉ m

def Entry.tail (e : Entry) : Str := e.missing.flatMap (':' :: ·)

theorem Entry.Ok.blank_tail (h : e.Ok) : ' ' ∉ e.tail := by
  intro hmem
  obtain ⟨m, hm, hc⟩ := List.mem_flatMap.mp hmem
  rcases List.mem_cons.mp hc with hc | hc
  · exact absurd hc (by decide)
  · exact h.missing m hm hc

/-- A stage below ten is one digit. -/
theorem digits_single : ∀ s < 10, (digits s).length = 1 ∧ ' ' ∉ digits s ∧ ':' ∉ digits s := by decide

theorem text_eq (h : e.Ok) :
    ∃ c, c ≠ ' ' ∧ e.text = ' ' :: '[' :: c :: ']' :: ':' :: (e.name ++ ':' :: e.tail) := by
  obtain ⟨hlength, hblank, -⟩ := digits_single e.stagelevel h.stage
  obtain ⟨c, hc⟩ := List.length_eq_one_iff.mp hlength
  refine ⟨c, fun h => hblank (by rw [hc, h]; exact List.mem_singleton_self _), ?_⟩
  rw [Entry.text, head, hc, Entry.tail]
  simp

theorem behindEntry_blank (hs : s.head? ≠ some ' ') : behindEntry name s = none := by
  rw [behindEntry, if_neg]
  rintro ⟨⟨t, ht⟩, -⟩
  exact hs (by rw [← ht]; rfl)

theorem dropWhile_tail (htail : ' ' ∉ s) (hrest : rest.head?.all (· == ' ') = true) :
    (s ++ rest).dropWhile (· != ' ') = rest := by
  rw [List.dropWhile_append_of_pos fun c hc => by simpa using fun h : c = ' ' => htail (h ▸ hc)]
  cases rest with
  | nil => rfl
  | cons c rest =>
    have hc : c = ' ' := by simpa using hrest
    rw [hc]
    rfl

theorem behindEntry_text (h : e.Ok) (hname : ':' ∉ name) (hrest : rest.head?.all (· == ' ') = true) :
    behindEntry name (e.text ++ rest) = if e.name = name then some rest else none := by
  obtain ⟨c, -, htext⟩ := text_eq h
  have hdrop : (e.text ++ rest).drop 3 = ']' :: ':' :: (e.name ++ ':' :: (e.tail ++ rest)) := by
    rw [htext]
    simp
  have hpre : [' ', '['] <+: e.text ++ rest := by
    rw [htext]
    exact ⟨c :: ']' :: ':' :: (e.name ++ ':' :: e.tail) ++ rest, rfl⟩
  rw [behindEntry, hdrop]
  by_cases heq : e.name = name
  · subst heq
    have hlong : e.name.length + 6 = (' ' :: '[' :: c :: ']' :: ':' :: (e.name ++ [':'])).length := by
      simp only [List.length_cons, List.length_append, List.length_nil]
    have hsplit : e.text ++ rest =
        (' ' :: '[' :: c :: ']' :: ':' :: (e.name ++ [':'])) ++ (e.tail ++ rest) := by
      rw [htext]
      simp
    have hmatch : ']' :: ':' :: e.name ++ [':'] <+: ']' :: ':' :: (e.name ++ ':' :: (e.tail ++ rest)) :=
      ⟨e.tail ++ rest, by simp⟩
    rw [if_pos ⟨hpre, hmatch⟩, if_pos rfl, hsplit, hlong, List.drop_left, dropWhile_tail h.blank_tail hrest]
  · rw [if_neg heq, if_neg]
    rintro ⟨-, hmatch⟩
    rw [List.cons_append, List.cons_append, List.cons_prefix_cons, List.cons_prefix_cons] at hmatch
    obtain ⟨t, ht⟩ := hmatch.2.2
    rw [List.append_assoc, List.singleton_append] at ht
    have hboth := (List.append_eq_append_iff.mp ht)
    rcases hboth with ⟨u, hu, hrest'⟩ | ⟨u, hu, hrest'⟩
    · cases u with
      | nil => exact heq (by rw [hu, List.append_nil])
      | cons d u =>
        have hd : d = ':' := (List.cons.inj hrest').1.symm
        exact h.name_colon (by rw [hu, hd]; simp)
    · cases u with
      | nil => exact heq (by rw [hu, List.append_nil])
      | cons d u =>
        have hd : d = ':' := (List.cons.inj hrest').1.symm
        exact hname (by rw [hu, hd]; simp)

theorem removeLoop_copy (hs : ' ' ∉ s) (hfuel : s.length ≤ fuel) :
    removeLoop name fuel (s ++ rest) = s ++ removeLoop name (fuel - s.length) rest := by
  induction s generalizing fuel with
  | nil => rfl
  | cons c s ih =>
    rw [List.mem_cons, not_or] at hs
    obtain ⟨fuel, rfl⟩ : ∃ f, fuel = f + 1 := ⟨fuel - 1, by rw [List.length_cons] at hfuel; omega⟩
    rw [List.length_cons] at hfuel
    have hcopy := ih hs.2 (Nat.le_of_succ_le_succ hfuel)
    have hhead : behindEntry name (c :: (s ++ rest)) = none :=
      behindEntry_blank (by simpa using Ne.symm hs.1)
    rw [List.cons_append, removeLoop, hhead]
    dsimp only
    rw [hcopy, List.length_cons, Nat.add_sub_add_right]
    rfl

theorem head_texts (hes : ∀ e ∈ es, e.Ok) : (es.flatMap Entry.text).head?.all (· == ' ') = true := by
  cases es with
  | nil => rfl
  | cons e es =>
    obtain ⟨c, -, htext⟩ := text_eq (hes e List.mem_cons_self)
    rw [List.flatMap_cons, htext]
    rfl

theorem removeLoop_texts (hname : ':' ∉ name) (hes : ∀ e ∈ es, e.Ok)
    (hfuel : (es.flatMap Entry.text).length ≤ fuel) :
    removeLoop name fuel (es.flatMap Entry.text) = (es.filter fun e => e.name ≠ name).flatMap Entry.text := by
  induction es generalizing fuel with
  | nil => cases fuel <;> rfl
  | cons e es ih =>
    have he := hes e List.mem_cons_self
    have hrest : ∀ e ∈ es, e.Ok := fun x hx => hes x (List.mem_cons_of_mem e hx)
    have hbehind := behindEntry_text he hname (head_texts hrest)
    obtain ⟨c, hc, htext⟩ := text_eq he
    rw [List.flatMap_cons, List.length_append] at hfuel
    obtain ⟨fuel, rfl⟩ : ∃ f, fuel = f + 1 := ⟨fuel - 1, by rw [htext, List.length_cons] at hfuel; omega⟩
    have hblank : ' ' ∉ '[' :: c :: ']' :: ':' :: (e.name ++ ':' :: e.tail) := by
      have hn := he.name_blank
      have ht := he.blank_tail
      simp [hn, ht, hc.symm]
    rw [List.flatMap_cons]
    rw [htext] at hfuel hbehind ⊢
    rw [List.cons_append] at hbehind ⊢
    rw [removeLoop, hbehind]
    by_cases heq : e.name = name
    · rw [if_pos heq, List.filter_cons_of_neg (by simpa using heq)]
      dsimp only
      exact ih hrest (by rw [List.length_cons] at hfuel; omega)
    · rw [if_neg heq, List.filter_cons_of_pos (by simpa using heq), List.flatMap_cons, htext]
      dsimp only
      rw [removeLoop_copy hblank (by rw [List.length_cons] at hfuel; omega),
        ih hrest (by rw [List.length_cons] at hfuel; omega)]
      rfl

theorem removeEntry_texts (hname : ':' ∉ name) (hes : ∀ e ∈ es, e.Ok) :
    removeEntry name (es.flatMap Entry.text) = (es.filter fun e => e.name ≠ name).flatMap Entry.text :=
  removeLoop_texts hname hes (Nat.le_refl _)

end Removal

section Runs

variable {lines : Str → List Str} {pkgList : List Str} {before : List Job} {j : Job} {es : List Entry}
    {g : Vars}

theorem foldl_readDep (stagelevel : Nat) (name package present : Str) (deplines : List Str)
    (st : Str × Bool) :
    deplines.foldl (readDep stagelevel name package present) st =
      (deplines.flatMap fun depline =>
        if field (split depline) 1 ≠ "[DEP]".toList then [] else (split depline).drop 1).foldl
          (checkDep stagelevel name package present) st := by
  induction deplines generalizing st with
  | nil => rfl
  | cons depline deplines ih =>
    rw [List.foldl_cons, ih, List.flatMap_cons, List.foldl_append, readDep]
    split <;> rfl

/-- The dependencies that are neither the package nor present are appended, behind the head that the first one
calls for. -/
theorem foldl_checkDep (stagelevel : Nat) (name package present : Str) (deps : List Str) (errors : Str)
    (first : Bool) :
    deps.foldl (checkDep stagelevel name package present) (errors, first) =
      let missing := deps.filter fun d => d ≠ package ∧ index present (pad d) = false
      (errors ++ (if first = true ∧ missing ≠ [] then head stagelevel name else []) ++
          missing.flatMap (':' :: ·),
        first && missing.isEmpty) := by
  induction deps generalizing errors first with
  | nil => simp
  | cons d deps ih =>
    rw [List.foldl_cons, checkDep]
    by_cases hd : d = package
    · rw [if_pos hd, ih, List.filter_cons_of_neg (by simp [hd])]
    · rw [if_neg hd]
      cases hindex : index present (pad d) with
      | true => rw [if_pos rfl, ih, List.filter_cons_of_neg (by simp [hindex])]
      | false =>
        rw [if_neg Bool.false_ne_true, ih, List.filter_cons_of_pos (by simp [hd, hindex])]
        cases first <;> simp

/-- The variables when some packages have been looked at. -/
structure Reached (before : List Job) (es : List Entry) (g : Vars) : Prop where
  present : g.present = (before.map Job.package).flatMap pad
  errors : g.errors = es.flatMap Entry.text
  entries : ∀ e ∈ es, e.Ok

/-- The entries when one more package has been looked at. -/
def entered (lines : Str → List Str) (before : List Job) (es : List Entry) (j : Job) : List Entry :=
  if j.stagelevel < 2 then es
  else es.filter (fun e => e.name ≠ nameOf j) ++
    if (entryOf lines before j).missing = [] then [] else [entryOf lines before j]

theorem plain_chars {w : Str} (h : w.all plainChar = true) : ':' ∉ w ∧ ' ' ∉ w := by
  rw [List.all_eq_true] at h
  exact ⟨fun hc => absurd (h _ hc) (by decide), fun hc => absurd (h _ hc) (by decide)⟩

theorem plain_name (hrepo : j.repository.all plainChar = true) (hpkg : j.package.all plainChar = true) :
    ':' ∉ nameOf j ∧ ' ' ∉ nameOf j := by
  have hr := plain_chars hrepo
  have hp := plain_chars hpkg
  rw [nameOf, entryName]
  simp [hr, hp]

theorem depsOf_word {d : Str} (hd : d ∈ depsOf lines j) : d ≠ [] ∧ ' ' ∉ d := by
  obtain ⟨depline, -, hd⟩ := List.mem_flatMap.mp hd
  split at hd
  next => exact absurd hd List.not_mem_nil
  next => exact split_word (List.mem_of_mem_drop hd)

theorem missing_eq (present : Str) (hpresent : present = ((before ++ [j]).map Job.package).flatMap pad) :
    ((depsOf lines j).filter fun d => d ≠ j.package ∧ index present (pad d) = false) =
      (entryOf lines before j).missing := by
  refine List.filter_congr fun d hd => ?_
  obtain ⟨hne, hblank⟩ := depsOf_word hd
  have hnames : ∀ v ∈ (before ++ [j]).map Job.package, ' ' ∉ v := by
    intro v hv
    obtain ⟨k, -, rfl⟩ := List.mem_map.mp hv
    exact blank_notMem_field _ _
  rw [hpresent, index_present hne hblank hnames, decide_eq_decide, decide_eq_false_iff_not]

theorem checkPackage_early (hearly : j.stagelevel < 2)
    (hindex : index (field (split j.pkgline) 2) (digits j.stagelevel) = true) :
    checkPackage lines j.stagelevel g j.pkgline = ⟨g.present ++ pad j.package, g.errors⟩ := by
  rw [checkPackage]
  dsimp only
  rw [hindex, if_neg (by decide), if_pos hearly]
  rfl

theorem checkPackage_late (hlate : ¬j.stagelevel < 2)
    (hindex : index (field (split j.pkgline) 2) (digits j.stagelevel) = true) :
    checkPackage lines j.stagelevel g j.pkgline =
      ⟨g.present ++ pad j.package,
        ((depsOf lines j).foldl (checkDep j.stagelevel (nameOf j) j.package (g.present ++ pad j.package))
          (removeEntry (nameOf j) g.errors, true)).1⟩ := by
  rw [depsOf, ← foldl_readDep, checkPackage]
  dsimp only
  rw [hindex, if_neg (by decide), if_neg hlate]
  rfl

theorem Reached.step (h : Reached before es g) (hstage : j.stagelevel < 9)
    (hindex : index (field (split j.pkgline) 2) (digits j.stagelevel) = true)
    (hrepo : j.repository.all plainChar = true) (hpkg : j.package.all plainChar = true) :
    Reached (before ++ [j]) (entered lines before es j) (checkPackage lines j.stagelevel g j.pkgline) := by
  have hname := plain_name hrepo hpkg
  have hpresent : g.present ++ pad j.package = ((before ++ [j]).map Job.package).flatMap pad := by
    rw [h.present]
    simp
  have hok : (entryOf lines before j).Ok :=
    ⟨by dsimp only [entryOf]; omega, hname.1, hname.2,
      fun m hm => (depsOf_word (List.mem_filter.mp hm).1).2⟩
  rw [entered]
  by_cases hearly : j.stagelevel < 2
  · rw [if_pos hearly, checkPackage_early hearly hindex]
    exact ⟨hpresent, h.errors, h.entries⟩
  · rw [if_neg hearly, checkPackage_late hearly hindex, h.errors, removeEntry_texts hname.1 h.entries,
      foldl_checkDep]
    dsimp only
    rw [missing_eq _ hpresent]
    refine ⟨hpresent, ?_, ?_⟩
    · rw [List.flatMap_append]
      by_cases hnone : (entryOf lines before j).missing = []
      · rw [if_neg (by simp [hnone]), if_pos hnone, hnone]
        simp
      · rw [if_pos ⟨rfl, hnone⟩, if_neg hnone, List.append_assoc]
        simp [Entry.text, entryOf]
    · intro e he
      rcases List.mem_append.mp he with he | he
      · exact h.entries e (List.mem_of_mem_filter he)
      · split at he
        next => exact absurd he List.not_mem_nil
        next => exact List.mem_singleton.mp he ▸ hok

theorem Reached.run (rest : List Job) (h : Reached before es g)
    (hrest : ∀ j ∈ rest, j.stagelevel < 9 ∧ index (field (split j.pkgline) 2) (digits j.stagelevel) = true ∧
      j.repository.all plainChar = true ∧ j.package.all plainChar = true) :
    (rest.foldl (fun g j => checkPackage lines j.stagelevel g j.pkgline) g).errors =
      (rest.foldl (fun st j => (st.1 ++ [j], entered lines st.1 st.2 j))
        (before, es)).2.flatMap Entry.text := by
  induction rest generalizing before es g with
  | nil => exact h.errors
  | cons j rest ih =>
    obtain ⟨hstage, hindex, hrepo, hpkg⟩ := hrest j List.mem_cons_self
    rw [List.foldl_cons, List.foldl_cons]
    exact ih (h.step hstage hindex hrepo hpkg) fun k hk => hrest k (List.mem_cons_of_mem j hk)

end Runs

section Table

variable {lines : Str → List Str} {pkgList : List Str} {e : Entry} {es : List Entry} {s : Str}

theorem map_other {x y : Char} (h : x ∉ s) : s.map (fun c => if c = x then y else c) = s := by
  refine (List.map_congr_left fun c hc => ?_).trans (List.map_id s)
  exact if_neg fun heq : c = x => h (heq ▸ hc)

/-- A single colon stays. -/
theorem gsub_colon (hs : s.head? ≠ some ':') :
    gsub "::".toList "\t".toList (':' :: s) = ':' :: gsub "::".toList "\t".toList s := by
  have hno : ¬[':', ':'] <+: ':' :: s := by
    rintro ⟨t, ht⟩
    exact hs (by rw [← (List.cons.inj ht).2]; rfl)
  show gsubAux [':', ':'] ['\t'] 0 (':' :: s) = ':' :: gsubAux [':', ':'] ['\t'] 0 s
  rw [gsubAux, if_neg hno]

theorem gsub_words {ds : List Str} {rest : Str} (hds : ∀ d ∈ ds, d ≠ [] ∧ ':' ∉ d) :
    gsub "::".toList "\t".toList (ds.flatMap (':' :: ·) ++ rest) =
      ds.flatMap (':' :: ·) ++ gsub "::".toList "\t".toList rest := by
  induction ds with
  | nil => rfl
  | cons d ds ih =>
    obtain ⟨⟨hne, hcolon⟩, hrest⟩ := List.forall_mem_cons.mp hds
    obtain ⟨c, w, rfl⟩ := List.exists_cons_of_ne_nil hne
    have hc : (c :: w ++ (ds.flatMap (':' :: ·) ++ rest)).head? ≠ some ':' := by
      intro h
      exact hcolon (by rw [Option.some.inj h]; exact List.mem_cons_self)
    have hcopy : gsub "::".toList "\t".toList (c :: w ++ (ds.flatMap (':' :: ·) ++ rest)) =
        c :: w ++ gsub "::".toList "\t".toList (ds.flatMap (':' :: ·) ++ rest) := gsub_copy _ hcolon
    rw [List.flatMap_cons, List.append_assoc, List.cons_append, gsub_colon hc, hcopy, ih hrest]
    simp

/-- An entry that the three substitutions take apart. -/
structure Entry.Printable (e : Entry) : Prop extends e.Ok where
  name_ne : e.name ≠ []
  missing_ne : e.missing ≠ []
  words : ∀ m ∈ e.missing, m ≠ [] ∧ ':' ∉ m

/-- The end of an entry behind the name, with one character between the dependencies. -/
def Entry.listed (c : Char) (e : Entry) : Str := e.missing.headD [] ++ e.missing.tail.flatMap (c :: ·)

theorem Entry.Printable.tail_eq (h : e.Printable) : e.tail = ':' :: e.listed ':' := by
  obtain ⟨d, ds, hmissing⟩ := List.exists_cons_of_ne_nil h.missing_ne
  rw [Entry.tail, Entry.listed, hmissing]
  rfl

/-- The text of an entry with other characters at its three places. -/
def Entry.framed (e : Entry) (first colon : Char) (rest : Str) : Str :=
  first :: '[' :: digits e.stagelevel ++ ']' :: colon :: e.name ++ rest

theorem Entry.Printable.newline (h : e.Printable) :
    e.text.map (fun c => if c = ' ' then '\n' else c) = e.framed '\n' ':' ("::".toList ++ e.listed ':') := by
  obtain ⟨-, hstage, -⟩ := digits_single e.stagelevel h.stage
  have htail := h.blank_tail
  rw [Entry.text, head, Entry.framed, ← Entry.tail, List.map_append, map_other htail, h.tail_eq]
  simp [map_other hstage, map_other h.name_blank]

theorem Entry.Printable.tab (h : e.Printable) (rest : Str) :
    gsub "::".toList "\t".toList (e.framed '\n' ':' ("::".toList ++ e.listed ':') ++ rest) =
      e.framed '\n' ':' ('\t' :: e.listed ':') ++ gsub "::".toList "\t".toList rest := by
  obtain ⟨-, -, hstage⟩ := digits_single e.stagelevel h.stage
  obtain ⟨d, ds, hmissing⟩ := List.exists_cons_of_ne_nil h.missing_ne
  have hwords := h.words
  rw [hmissing, List.forall_mem_cons] at hwords
  have hlisted : gsub "::".toList "\t".toList (e.listed ':' ++ rest) =
      e.listed ':' ++ gsub "::".toList "\t".toList rest := by
    have hcopy : gsub "::".toList "\t".toList (d ++ (ds.flatMap (':' :: ·) ++ rest)) =
        d ++ gsub "::".toList "\t".toList (ds.flatMap (':' :: ·) ++ rest) := gsub_copy _ hwords.1.2
    rw [Entry.listed, hmissing, List.headD_cons, List.tail_cons, List.append_assoc, hcopy,
      gsub_words hwords.2,
      List.append_assoc]
  have htab : gsub "::".toList "\t".toList (e.name ++ ("::".toList ++ (e.listed ':' ++ rest))) =
      e.name ++ ('\t' :: (e.listed ':' ++ gsub "::".toList "\t".toList rest)) := by
    have hcopy : gsub "::".toList "\t".toList (e.name ++ ("::".toList ++ (e.listed ':' ++ rest))) =
        e.name ++ gsub "::".toList "\t".toList ("::".toList ++ (e.listed ':' ++ rest)) :=
          gsub_copy _ h.name_colon
    have hhere : gsub "::".toList "\t".toList ("::".toList ++ (e.listed ':' ++ rest)) =
        "\t".toList ++ gsub "::".toList "\t".toList (e.listed ':' ++ rest) := by
      refine (gsub_here _).trans ?_
      rw [replacement_plain (by decide)]
      rfl
    rw [hcopy, hhere, hlisted]
    rfl
  obtain ⟨c, w, hname⟩ := List.exists_cons_of_ne_nil h.name_ne
  have hhead : (e.name ++ ("::".toList ++ (e.listed ':' ++ rest))).head? ≠ some ':' := by
    intro heq
    rw [hname] at heq
    exact h.name_colon (by rw [hname, Option.some.inj heq]; exact List.mem_cons_self)
  have hfront : ':' ∉ '\n' :: '[' :: digits e.stagelevel ++ [']'] := by
    simp [hstage]
  have hcopy : gsub "::".toList "\t".toList (('\n' :: '[' :: digits e.stagelevel ++ [']']) ++
        (':' :: (e.name ++ ("::".toList ++ (e.listed ':' ++ rest))))) =
      ('\n' :: '[' :: digits e.stagelevel ++ [']']) ++
        gsub "::".toList "\t".toList (':' :: (e.name ++ ("::".toList ++ (e.listed ':' ++ rest)))) :=
    gsub_copy _ hfront
  rw [gsub_colon hhead, htab] at hcopy
  simpa [Entry.framed] using hcopy

end Table

end T2SDE.CheckDeps
