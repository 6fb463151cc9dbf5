import Mathlib.Data.List.Nodup
import T2SDE.Lib.LuaMatch

namespace T2SDE.PackageDb

open Text Lua

/-- An installed package: its files in var/adm, as lists of lines, and whether its binary is there. -/
structure Package where
  name : Str
  desc : List Str
  dependencies : List Str
  md5sums : List (Str × Str)
  binary : Bool

/-- `echo -e "\027"`; the digits behind a zero are octal. -/
def separator : Str := [Char.ofNat 23]

def terminator : Str := [Char.ofNat 4]

/-- A line of the dependencies file. -/
def Package.dependencyLine (p : Package) (dependency : Str) : Str := p.name ++ ':' :: ' ' :: dependency

/-- A line of `md5sum`. -/
def md5Line (sum : Str × Str) : Str := sum.1 ++ ' ' :: ' ' :: sum.2

/-- The lines after `grep -v '\[COPY\]'`. -/
def Package.descLines (p : Package) : List Str :=
  p.desc.filter fun line => !decide ("[COPY]".toList <:+: line)

/-- The lines that are written for a package. -/
def Package.block (p : Package) : List Str :=
  p.name :: separator :: (p.descLines ++ separator :: (p.dependencies.map p.dependencyLine ++
    separator :: (p.md5sums.map md5Line ++ [separator, terminator])))

def available (pkgs : List Package) : List Package :=
  pkgs.filter fun p => p.binary && p.name != "TRANS.TBL".toList

/-- The text of the database, before gzip. -/
def createPackageDb (pkgs : List Package) : Str :=
  (available pkgs).flatMap fun p => p.block.flatMap fun line => line ++ ['\n']

section Parsers

inductive LuaError
  | badArgument
  | arithmeticOnNil
  deriving DecidableEq

/-- The lines that `block_lines` delivers, and those that are left. -/
def blockLines : List Str → List Str × List Str
  | [] => ([], [])
  | line :: lines =>
    if line = separator then ([], lines) else (line :: (blockLines lines).1, (blockLines lines).2)

def dependencyPattern : Str := "[^ ]* (.*)".toList

/-- `read_deps` on the lines of a block; inserting nil changes nothing. -/
def readDeps (block : List Str) : List Str := block.filterMap fun line =>
    (strMatch line dependencyPattern).bind List.head?

def flistPattern : Str := "^([0-9]+) ([0-9]+) (.*)".toList

/-- `read_flist`; the size of a line that does not match is nil. -/
def readFlist (usage : Nat) : List Str → Except LuaError Nat
  | [] => .ok usage
  | line :: lines =>
    match strMatch line flistPattern with
    | some [_, size, _] => readFlist (usage + Nat.ofDigitChars 10 size 0) lines
    | _ => .error .arithmeticOnNil

structure Entry (D : Type) where
  desc : D
  deps : List Str
  usage : Nat

/-- The table of packages and how often a missing terminator was reported. -/
structure Parsed (D : Type) where
  packages : List (Str × Entry D)
  missing : Nat

/-- `packages[pkgname] = pkg_data` -/
def assign {D : Type} (packages : List (Str × Entry D)) (name : Str) (entry : Entry D) :
    List (Str × Entry D) :=
  if packages.any (·.1 == name) then packages.map fun e => if e.1 = name then (name, entry) else e
  else packages ++ [(name, entry)]

variable {D : Type}

/-- The loop over the packages; `parseDesc` is given the iterator of a block. -/
def parse (parseDesc : List Str → Except LuaError (D × List Str)) : Nat → List Str → Parsed D →
    Except LuaError (Parsed D)
  | _, [], parsed => .ok parsed
  | 0, _ :: _, parsed => .ok parsed
  | fuel + 1, name :: lines, parsed => do
    let missing := parsed.missing + if lines.head? = some separator then 0 else 1
    let (desc, lines) ← parseDesc (lines.drop 1)
    let (deps, lines) := blockLines lines
    let (flist, lines) := blockLines lines
    let usage ← readFlist 0 flist
    let missing := missing + if lines.head? = some terminator then 0 else 1
    let entry : Entry D := { desc, deps := readDeps deps, usage }
    parse parseDesc fuel (lines.drop 1) { packages := assign parsed.packages name entry, missing }

/-- parse-db.lua, with what `t2_desc.parse` makes of the lines of its iterator. -/
def parseDb (t2Desc : List Str → D) (lines : List Str) : Except LuaError (Parsed D) :=
  parse (fun lines => .ok (t2Desc (blockLines lines).1, (blockLines lines).2)) lines.length lines
    { packages := [], missing := 0 }

/-- What `desc.parse` is called with. -/
inductive Argument
  | filename (name : Str)
  | iterator

/-- `desc.parse`: `io.open` takes a file name. -/
def descParse (readFile : Str → Except LuaError D) : Argument → Except LuaError D
  | .filename name => readFile name
  | .iterator => .error .badArgument

/-- The parser of sde/pkgdb.lua. -/
def pkgdbParse (readFile : Str → Except LuaError D) (lines : List Str) : Except LuaError (Parsed D) :=
  parse (fun lines => (descParse readFile .iterator).map fun desc => (desc, lines)) lines.length lines
    { packages := [], missing := 0 }

end Parsers

/-- What Build-Pkg and md5sum promise about the files of a package. -/
structure Package.Written (p : Package) : Prop where
  name_blank : ' ' ∉ p.name
  name_line : '\n' ∉ p.name
  desc_tag : ∀ line ∈ p.desc, line.head? = some '['
  desc_line : ∀ line ∈ p.desc, '\n' ∉ line
  dependency_line : ∀ dependency ∈ p.dependencies, '\n' ∉ dependency
  sum_blank : ∀ sum ∈ p.md5sums, ' ' ∉ sum.1
  sum_line : ∀ sum ∈ p.md5sums, '\n' ∉ sum.1 ∧ '\n' ∉ sum.2

section Lines

variable {p : Package}

theorem mem_descLines {line : Str} (h : line ∈ p.descLines) : line ∈ p.desc :=
  (List.mem_filter.mp h).1

theorem mem_available {pkgs : List Package} (h : p ∈ available pkgs) : p ∈ pkgs :=
  (List.mem_filter.mp h).1

theorem mem_block {line : Str} (h : line ∈ p.block) :
    line = p.name ∨ line = separator ∨ line = terminator ∨ line ∈ p.descLines ∨
      line ∈ p.dependencies.map p.dependencyLine ∨ line ∈ p.md5sums.map md5Line := by
  simp only [Package.block, List.mem_cons, List.mem_append, List.not_mem_nil, or_false] at h
  tauto

theorem Package.Written.block_line (hp : p.Written) {line : Str} (h : line ∈ p.block) : '\n' ∉ line := by
  rcases mem_block h with rfl | rfl | rfl | h | h | h
  · exact hp.name_line
  · decide
  · decide
  · exact hp.desc_line line (mem_descLines h)
  · obtain ⟨dependency, hd, rfl⟩ := List.mem_map.mp h
    simp [Package.dependencyLine, hp.name_line, hp.dependency_line dependency hd]
  · obtain ⟨sum, hs, rfl⟩ := List.mem_map.mp h
    simp [md5Line, (hp.sum_line sum hs).1, (hp.sum_line sum hs).2]

theorem createPackageDb_lines {pkgs : List Package} (hw : ∀ p ∈ pkgs, p.Written) :
    fileLines (createPackageDb pkgs) = (available pkgs).flatMap Package.block := by
  have htext : createPackageDb pkgs =
      ((available pkgs).flatMap Package.block).flatMap fun line => id line ++ ['\n'] := by
    rw [createPackageDb, List.flatMap_assoc]
    rfl
  have hline : ∀ line ∈ (available pkgs).flatMap Package.block, '\n' ∉ id line := by
    intro line h
    obtain ⟨p, hp, hline⟩ := List.mem_flatMap.mp h
    exact (hw p (mem_available hp)).block_line hline
  rw [htext, fileLines_flatMap id hline, List.map_id]

theorem separator_notMem_desc (hp : p.Written) : separator ∉ p.descLines := by
  intro h
  have htag := hp.desc_tag separator (mem_descLines h)
  revert htag
  decide

theorem length_dependencyLine (dependency : Str) : 1 < (p.dependencyLine dependency).length := by
  simp only [Package.dependencyLine, List.length_append, List.length_cons]
  omega

theorem length_md5Line (sum : Str × Str) : 1 < (md5Line sum).length := by
  simp only [md5Line, List.length_append, List.length_cons]
  omega

theorem separator_notMem_map {α : Type} {text : α → Str} (h : ∀ x, 1 < (text x).length) (xs : List α) :
    separator ∉ xs.map text := by
  intro hmem
  obtain ⟨x, -, hx⟩ := List.mem_map.mp hmem
  have hlen := h x
  rw [hx] at hlen
  exact absurd hlen (by decide)

end Lines

section Blocks

variable {p : Package}

theorem blockLines_append {block : List Str} (h : separator ∉ block) (rest : List Str) :
    blockLines (block ++ separator :: rest) = (block, rest) := by
  induction block with
  | nil => simp [blockLines]
  | cons line block ih =>
    have hline : line ≠ separator := fun heq => h (by simp [heq])
    rw [List.cons_append, blockLines, if_neg hline, ih fun hmem => h (by simp [hmem])]

theorem dependencyPattern_compiles :
    compile dependencyPattern = some ⟨false, [.single (.set true [.char ' ']) .star, .single (.char ' ') .one,
      .openCapture, .single .any .star, .closeCapture]⟩ := by decide

theorem strMatch_dependencyLine (hname : ' ' ∉ p.name) (dependency : Str) :
    strMatch (p.dependencyLine dependency) dependencyPattern = some [dependency] := by
  have hsplit : p.dependencyLine dependency = (p.name ++ [':']) ++ ' ' :: dependency := by
    simp [Package.dependencyLine]
  have hstar : doMatch [.openCapture, .single .any .star, .closeCapture] (dependency ++ []) [] =
      some ([], [.text dependency]) := doMatch_starField (fun _ _ => rfl) (stops_nil _) rfl
  have hname : ∀ c ∈ p.name ++ [':'], (CharClass.set true [.char ' ']).admits c = true := by
    intro c hc
    have hblank : c ≠ ' ' := by
      rintro rfl
      rcases List.mem_append.mp hc with hc | hc
      · exact hname hc
      · exact absurd hc (by decide)
    simp [CharClass.admits, SetElem.admits, Ne.symm hblank]
  rw [List.append_nil] at hstar
  rw [hsplit]
  exact strMatch_start (by simp) dependencyPattern_compiles
    (doMatch_skip hname (stops_cons (by decide) _) (doMatch_char hstar))

theorem readDeps_dependencyLines (hname : ' ' ∉ p.name) (dependencies : List Str) :
    readDeps (dependencies.map p.dependencyLine) = dependencies := by
  induction dependencies with
  | nil => rfl
  | cons dependency dependencies ih =>
    rw [readDeps] at ih ⊢
    rw [List.map_cons, List.filterMap_cons, strMatch_dependencyLine hname]
    exact congrArg (dependency :: ·) ih

theorem flistPattern_compiles :
    compile flistPattern =
    some ⟨true, [.openCapture, .single (.set false [.range '0' '9']) .plus, .closeCapture,
      .single (.char ' ') .one, .openCapture, .single (.set false [.range '0' '9']) .plus, .closeCapture,
      .single (.char ' ') .one, .openCapture, .single .any .star, .closeCapture]⟩ := by decide

/-- There is a blank where the pattern has the size. -/
theorem strMatch_md5Line {sum : Str × Str} (hsum : ' ' ∉ sum.1) :
    strMatch (md5Line sum) flistPattern = none := by
  rw [strMatch, flistPattern_compiles, Option.bind_some, search, if_pos rfl, Option.map_map,
    Option.map_eq_none_iff, Option.eq_none_iff_forall_not_mem]
  intro r h
  obtain ⟨w, rest, hs, -, hw, h⟩ := doMatch_plusCapture_cases h
  obtain ⟨c, t, rfl, hc, h⟩ := doMatch_one_cases h
  obtain ⟨v, rest, ht, hne, hv, -⟩ := doMatch_plusCapture_cases h
  have hblank : c = ' ' := (beq_iff_eq.mp hc).symm
  subst hblank
  have hnotw : ' ' ∉ w := fun hmem => absurd (hw ' ' hmem) (by decide)
  rw [md5Line] at hs
  have hword : w = sum.1 := by
    have hpre : w ++ [' '] <+: sum.1 ++ ' ' :: ' ' :: sum.2 :=
      ⟨t, by rw [hs, List.append_assoc, List.singleton_append]⟩
    exact eq_of_prefix_sep hnotw hsum hpre
  rw [hword, List.append_cancel_left_eq] at hs
  obtain ⟨d, v, rfl⟩ := List.exists_cons_of_ne_nil hne
  have hd : d = ' ' := by
    rw [ht] at hs
    exact (List.cons.inj (List.cons.inj hs).2).1.symm
  subst hd
  exact absurd (hv ' ' (by simp)) (by decide)

theorem readFlist_md5Lines {sums : List (Str × Str)} (hne : sums ≠ []) (hsum : ∀ sum ∈ sums, ' ' ∉ sum.1)
    (usage : Nat) :
    readFlist usage (sums.map md5Line) = .error .arithmeticOnNil := by
  obtain ⟨sum, sums, rfl⟩ := List.exists_cons_of_ne_nil hne
  rw [List.map_cons, readFlist, strMatch_md5Line (hsum sum (by simp))]

end Blocks

section Runs

variable {D : Type} (t2Desc : List Str → D)

/-- `t2_desc.parse` on the iterator of a block. -/
def iteratorParse (lines : List Str) : Except LuaError (D × List Str) :=
  .ok (t2Desc (blockLines lines).1, (blockLines lines).2)

def Package.entry (p : Package) : Str × Entry D :=
  (p.name, { desc := t2Desc p.descLines, deps := p.dependencies, usage := 0 })

variable {t2Desc} {p : Package} {fuel : Nat} {parsed : Parsed D}

theorem parse_block (hp : p.Written) (rest : List Str) :
    parse (iteratorParse t2Desc) (fuel + 1) (p.block ++ rest) parsed =
      (readFlist 0 (p.md5sums.map md5Line)).bind fun usage =>
        parse (iteratorParse t2Desc) fuel rest
          { packages := assign parsed.packages p.name { desc := t2Desc p.descLines, deps := p.dependencies, usage },
            missing := parsed.missing } := by
  have hblock : p.block ++ rest = p.name :: separator :: (p.descLines ++ separator ::
      (p.dependencies.map p.dependencyLine ++ separator ::
        (p.md5sums.map md5Line ++ separator :: terminator :: rest))) := by
    simp [Package.block]
  have hdesc := blockLines_append (separator_notMem_desc hp)
  have hdeps := blockLines_append (separator_notMem_map (length_dependencyLine (p := p)) p.dependencies)
  have hsums := blockLines_append (separator_notMem_map length_md5Line p.md5sums)
  rw [hblock, parse]
  simp only [List.head?_cons, List.drop_succ_cons, List.drop_zero, if_true, iteratorParse, hdesc, hdeps,
    hsums,
    readDeps_dependencyLines hp.name_blank, Nat.add_zero, bind, Except.bind]

theorem assign_fresh {packages : List (Str × Entry D)} {name : Str} (h : name ∉ packages.map (·.1)) (entry : Entry D) :
    assign packages name entry = packages ++ [(name, entry)] := by
  have hany : packages.any (·.1 == name) = false := by
    rw [List.any_eq_false]
    intro e he heq
    exact h (List.mem_map.mpr ⟨e, he, beq_iff_eq.mp heq⟩)
  rw [assign, hany, if_neg (by simp)]

theorem parse_blocks {pkgs : List Package} (hw : ∀ p ∈ pkgs, p.Written) (hsums : ∀ p ∈ pkgs, p.md5sums = [])
    (hnames : (parsed.packages.map (·.1) ++ pkgs.map Package.name).Nodup) (hfuel : pkgs.length ≤ fuel) :
    parse (iteratorParse t2Desc) fuel (pkgs.flatMap Package.block) parsed =
      .ok { packages := parsed.packages ++ pkgs.map (Package.entry t2Desc), missing := parsed.missing } := by
  induction pkgs generalizing fuel parsed with
  | nil => simp [parse]
  | cons p pkgs ih =>
    obtain ⟨fuel, rfl⟩ : ∃ n, fuel = n + 1 := ⟨fuel - 1, by simp only [List.length_cons] at hfuel; omega⟩
    have hfresh : p.name ∉ parsed.packages.map (·.1) := by
      exact fun hmem => List.disjoint_of_nodup_append hnames hmem (by simp)
    have hflist : readFlist 0 (p.md5sums.map md5Line) = .ok 0 := by
      rw [hsums p (by simp)]
      rfl
    rw [List.flatMap_cons, parse_block (hw p (by simp)), hflist]
    simp only [Except.bind, assign_fresh hfresh]
    rw [ih (fun q hq => hw q (by simp [hq])) (fun q hq => hsums q (by simp [hq]))]
    · simp [Package.entry]
    · simpa using hnames
    · simp only [List.length_cons] at hfuel
      omega

theorem parse_blocks_error {pkgs : List Package} (hw : ∀ p ∈ pkgs, p.Written)
    (hsums : ∃ p ∈ pkgs, p.md5sums ≠ [])
    (hfuel : pkgs.length ≤ fuel) :
    parse (iteratorParse t2Desc) fuel (pkgs.flatMap Package.block) parsed = .error .arithmeticOnNil := by
  induction pkgs generalizing fuel parsed with
  | nil =>
    obtain ⟨p, hp, -⟩ := hsums
    cases hp
  | cons p pkgs ih =>
    obtain ⟨fuel, rfl⟩ : ∃ n, fuel = n + 1 := ⟨fuel - 1, by simp only [List.length_cons] at hfuel; omega⟩
    have hp : p.Written := hw p (by simp)
    rw [List.flatMap_cons, parse_block hp]
    by_cases hempty : p.md5sums = []
    · have hrest : ∃ q ∈ pkgs, q.md5sums ≠ [] := by
        obtain ⟨q, hq, hne⟩ := hsums
        rcases List.mem_cons.mp hq with rfl | hq
        · exact absurd hempty hne
        · exact ⟨q, hq, hne⟩
      rw [hempty]
      refine ih (fun q hq => hw q (by simp [hq])) hrest ?_
      simp only [List.length_cons] at hfuel
      omega
    · rw [readFlist_md5Lines hempty hp.sum_blank]
      rfl

theorem length_le_flatMap_block (pkgs : List Package) :
    pkgs.length ≤ (pkgs.flatMap Package.block).length := by
  induction pkgs with
  | nil => simp
  | cons p pkgs ih =>
    rw [List.flatMap_cons, List.length_append, List.length_cons]
    have hblock : 0 < p.block.length := by simp [Package.block]
    omega

end Runs

section RoundTrip

variable {D : Type}

/-- The parser gives back every package with its own description and dependencies. -/
def RoundTrips (t2Desc : List Str → D) (parser : List Str → Except LuaError (Parsed D))
    (pkgs : List Package) : Prop :=
  ∃ result, parser (fileLines (createPackageDb pkgs)) = .ok result ∧ result.missing = 0 ∧
    result.packages.map (fun e => (e.1, e.2.desc, e.2.deps)) =
      (available pkgs).map fun p => (p.name, t2Desc p.descLines, p.dependencies)

variable {t2Desc : List Str → D} {pkgs : List Package}

theorem parseDb_roundTrips (hw : ∀ p ∈ pkgs, p.Written) (hnames : (pkgs.map Package.name).Nodup)
    (hsums : ∀ p ∈ available pkgs, p.md5sums = []) : RoundTrips t2Desc (parseDb t2Desc) pkgs := by
  have hnodup : ((available pkgs).map Package.name).Nodup :=
    hnames.sublist (List.filter_sublist.map Package.name)
  have hrun : parse (iteratorParse t2Desc) ((available pkgs).flatMap Package.block).length
      ((available pkgs).flatMap Package.block) { packages := [], missing := 0 } =
        .ok { packages := (available pkgs).map (Package.entry t2Desc), missing := 0 } :=
    parse_blocks (fun p hp => hw p (mem_available hp)) hsums (by simpa using hnodup)
      (length_le_flatMap_block (available pkgs))
  refine ⟨{ packages := (available pkgs).map (Package.entry t2Desc), missing := 0 }, ?_, rfl, ?_⟩
  · rw [createPackageDb_lines hw]
    exact hrun
  · simp [Package.entry]

theorem parseDb_stops (hw : ∀ p ∈ pkgs, p.Written) (hsums : ∃ p ∈ available pkgs, p.md5sums ≠ []) :
    ¬ RoundTrips t2Desc (parseDb t2Desc) pkgs := by
  rintro ⟨result, hparse, -⟩
  rw [createPackageDb_lines hw] at hparse
  have herror : parse (iteratorParse t2Desc) ((available pkgs).flatMap Package.block).length
      ((available pkgs).flatMap Package.block) { packages := [], missing := 0 } = .error .arithmeticOnNil :=
    parse_blocks_error (fun p hp => hw p (mem_available hp)) hsums (length_le_flatMap_block (available pkgs))
  exact absurd (herror.symm.trans hparse) (by simp)

/-- The first description is parsed from something that is not a file name. -/
theorem pkgdbParse_stops (readFile : Str → Except LuaError D) (hw : ∀ p ∈ pkgs, p.Written)
    (hne : available pkgs ≠ []) : ¬ RoundTrips t2Desc (pkgdbParse readFile) pkgs := by
  rintro ⟨result, hparse, -⟩
  obtain ⟨p, rest, hp⟩ := List.exists_cons_of_ne_nil hne
  rw [createPackageDb_lines hw, hp, List.flatMap_cons] at hparse
  exact absurd hparse (by simp [pkgdbParse, Package.block, parse, descParse, Except.map, bind, Except.bind])

theorem round_trip_iff (t2Desc : List Str → D) (readFile : Str → Except LuaError D) {pkgs : List Package}
    (hw : ∀ p ∈ pkgs, p.Written) (hnames : (pkgs.map Package.name).Nodup) :
    (RoundTrips t2Desc (parseDb t2Desc) pkgs ∧ RoundTrips t2Desc (pkgdbParse readFile) pkgs ↔
    available pkgs = []) ∧
      (RoundTrips t2Desc (parseDb t2Desc) pkgs ↔ ∀ p ∈ available pkgs, p.md5sums = []) := by
  refine ⟨⟨?_, ?_⟩, ⟨?_, parseDb_roundTrips hw hnames⟩⟩
  · rintro ⟨-, hpkgdb⟩
    by_contra hne
    exact pkgdbParse_stops readFile hw hne hpkgdb
  · intro hempty
    refine ⟨parseDb_roundTrips hw hnames (by simp [hempty]), ⟨{ packages := [], missing := 0 }, ?_, rfl, ?_⟩⟩
    · rw [createPackageDb_lines hw, hempty]
      rfl
    · rw [hempty]
      rfl
  · intro hdb p hp
    by_contra hne
    exact parseDb_stops hw ⟨p, hp, hne⟩ hdb

end RoundTrip

section Samples

def bash : Package where
  name := "bash".toList
  desc := ["[I] The GNU shell".toList, "[COPY] GPL".toList]
  dependencies := ["readline".toList]
  md5sums := [("900150983cd24fb0d6963f7d28e17f72".toList, "bin/bash".toList)]
  binary := true

theorem bash_written : bash.Written where
  name_blank := by decide
  name_line := by decide
  desc_tag := by decide
  desc_line := by decide
  dependency_line := by decide
  sum_blank := by decide
  sum_line := by decide

theorem round_trip_sample :
    (RoundTrips id (parseDb id) [bash] ∧ RoundTrips id (pkgdbParse fun _ => .ok []) [bash] ↔
    available [bash] = []) ∧
      (RoundTrips id (parseDb id) [bash] ↔ ∀ p ∈ available [bash], p.md5sums = []) :=
  round_trip_iff id _ (by simpa using bash_written) (by simp)

/-- Neither parser reads the database of one package with one file. -/
theorem round_trip_fails : ¬ (∀ pkgs : List Package, (∀ p ∈ pkgs, p.Written) → (pkgs.map Package.name).Nodup →
    RoundTrips id (parseDb id) pkgs ∧ RoundTrips id (pkgdbParse fun _ => .ok []) pkgs) ∧
    ¬ RoundTrips id (parseDb id) [bash] ∧ ¬ RoundTrips id (pkgdbParse fun _ => .ok []) [bash] := by
  have hw : ∀ p ∈ [bash], p.Written := by simpa using bash_written
  have havailable : bash ∈ available [bash] := by simp [available, bash]
  have hdb : ¬ RoundTrips id (parseDb id) [bash] := parseDb_stops hw ⟨bash, havailable, by decide⟩
  have hpkgdb : ¬ RoundTrips id (pkgdbParse fun _ => .ok []) [bash] :=
    pkgdbParse_stops _ hw (List.ne_nil_of_mem havailable)
  exact ⟨fun h => hdb (h [bash] hw (by simp)).1, hdb, hpkgdb⟩

end Samples

end T2SDE.PackageDb
