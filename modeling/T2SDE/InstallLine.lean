import T2SDE.InstallWrapper

namespace T2SDE.Install

open Text PathName ShellFields

/-- A part of a command line: an option with its argument, `-t` with its directory, or an operand. -/
inductive Item
  | option (words : List Str)
  | target (d : Str)
  | operand (s : Str)

namespace Item

def words : Item → List Str
  | option ws => ws
  | target d => ["-t".toList, d]
  | operand s => [s]

def option? : Item → Option (List Str)
  | option ws => some ws
  | _ => none

def target? : Item → Option Str
  | target d => some d
  | _ => none

def operand? : Item → Option Str
  | operand s => some s
  | _ => none

/-- What the wrapper takes for an operand. -/
def name? : Item → Option Str
  | target d => some d
  | operand s => some s
  | option _ => none

end Item

/-- A command line, with the operands behind `--` if there is one. -/
structure Line where
  items : List Item
  rest : Option (List Str)

namespace Line

def stop (line : Line) : List Str := if line.rest.isSome then ["--".toList] else []

def words (line : Line) : List Str := line.items.flatMap Item.words ++ (line.stop ++ line.rest.getD [])

def options (line : Line) : List (List Str) := line.items.filterMap Item.option?

def targets (line : Line) : List Str := line.items.filterMap Item.target?

def operands (line : Line) : List Str := line.items.filterMap Item.operand? ++ line.rest.getD []

/-- The operands and the arguments of `-t` in their order. -/
def names (line : Line) : List Str := line.items.filterMap Item.name? ++ line.rest.getD []

/-- The options that the wrapper passes on. -/
def passed (line : Line) (command : Str) : List Str := (kept command line.options).flatten ++ line.stop

end Line

/-- The shell leaves the word as it is outside of quotes. -/
def Site.Single (site : Site) (w : Str) : Prop := w ≠ [] ∧ (∀ c ∈ w, c ∉ site.ifs) ∧ site.glob w = [w]

/-- A word that is no option. -/
def IsName (s : Str) : Prop := s ≠ [] ∧ s.head? ≠ some '-'

/-- The wrapper takes the words for an option, with the next word as its argument if it is in the table. -/
inductive Passed : List Str → Prop
  | flag {w : Str} : w.head? = some '-' → w ≠ "-t".toList → w ∉ withArgument → Passed [w]
  | argument {w a : Str} : w ∈ withArgument → Passed [w, a]

/-- The wrapper and the real command agree on the option. -/
inductive Tool.PlainOption (tool : Tool) (site : Site) : List Str → Prop
  | flag {w : Str} : site.Single w → w.head? = some '-' → w ≠ "-".toList → w ≠ "--".toList → w ≠ "-t".toList →
      w ∉ withArgument → tool.takes w = false → PlainOption tool site [w]
  | argument {w a : Str} : site.Single w → site.Single a → w ∈ withArgument → tool.takes w = true →
      PlainOption tool site [w, a]

/-- The options are plain ones, and no operand looks like one. -/
structure Line.Plain (tool : Tool) (site : Site) (line : Line) : Prop where
  blank : ' ' ∈ site.ifs
  command : site.Single tool.name
  stop : line.rest.isSome = true → site.Single "--".toList
  options : ∀ o ∈ line.options, tool.PlainOption site o ∧ tool.role o ≠ .other
  names : ∀ s ∈ line.names, IsName s
  target : ∀ w ∈ line.words, ¬"--target-directory".toList <:+: w

section Read

variable {tool : Tool} {site : Site}

theorem withArgument_option : ∀ w ∈ withArgument,
    w ≠ "--".toList ∧ w ≠ "-t".toList ∧ w.head? = some '-' ∧ w ≠ "-".toList := by
  decide

theorem read_option {o : List Str} (ho : tool.PlainOption site o) (tail : List Str) :
    read tool.takes (o ++ tail) = (read tool.takes tail).map fun l =>
    { l with options := o :: l.options } := by
  cases ho with
  | @flag w hw hhead hdash hstop ht harg htakes =>
    rw [List.singleton_append, read.eq_def]
    dsimp only
    rw [if_neg hstop, if_neg ht, if_pos ⟨hhead, hdash⟩, htakes]
    rfl
  | @argument w a hw ha harg htakes =>
    obtain ⟨hstop, ht, hhead, hdash⟩ := withArgument_option w harg
    rw [List.cons_append, read.eq_def]
    dsimp only
    rw [if_neg hstop, if_neg ht, if_pos ⟨hhead, hdash⟩, htakes]
    rfl

theorem read_operand {s : Str} (hs : s.head? ≠ some '-') (tail : List Str) :
    read tool.takes (s :: tail) = (read tool.takes tail).map fun l =>
    { l with operands := s :: l.operands } := by
  have hstop : s ≠ "--".toList := fun h => hs (by rw [h]; rfl)
  have ht : s ≠ "-t".toList := fun h => hs (by rw [h]; rfl)
  rw [read.eq_def]
  dsimp only
  rw [if_neg hstop, if_neg ht, if_neg fun h => hs h.1]

theorem read_target (d : Str) (tail : List Str) :
    read tool.takes (["-t".toList, d] ++ tail) =
      (read tool.takes tail).map fun l => { l with targets := d :: l.targets } := by
  rw [List.cons_append, read.eq_def]
  dsimp only
  rw [if_neg (by decide), if_pos rfl]
  rfl

theorem read_operands {ops : List Str} (hops : ∀ s ∈ ops, s.head? ≠ some '-') :
    read tool.takes ops = some ⟨[], [], ops⟩ := by
  induction ops with
  | nil => rfl
  | cons s ops ih =>
    rw [read_operand (hops s List.mem_cons_self), ih fun x hx => hops x (List.mem_cons_of_mem s hx)]
    rfl

theorem read_stop (line : Line) {ops : List Str} (hops : ∀ s ∈ ops, s.head? ≠ some '-') :
    read tool.takes (line.stop ++ ops) = some ⟨[], [], ops⟩ := by
  unfold Line.stop
  split
  · rw [List.singleton_append, read.eq_def]
    dsimp only
    rw [if_pos rfl]
  · exact read_operands hops

theorem read_options {os : List (List Str)} (hos : ∀ o ∈ os, tool.PlainOption site o) (tail : List Str) :
    read tool.takes (os.flatten ++ tail) =
      (read tool.takes tail).map fun l => { l with options := os ++ l.options } := by
  induction os with
  | nil => exact Option.map_id'.symm
  | cons o os ih =>
    rw [List.flatten_cons, List.append_assoc, read_option (hos o List.mem_cons_self),
      ih fun x hx => hos x (List.mem_cons_of_mem o hx), Option.map_map]
    rfl

theorem read_items {items : List Item} (ho : ∀ o ∈ items.filterMap Item.option?, tool.PlainOption site o)
    (hn : ∀ s ∈ items.filterMap Item.name?, IsName s) (tail : List Str) :
    read tool.takes (items.flatMap Item.words ++ tail) =
      (read tool.takes tail).map fun l =>
        ⟨items.filterMap Item.option? ++ l.options, items.filterMap Item.target? ++ l.targets,
          items.filterMap Item.operand? ++ l.operands⟩ := by
  induction items with
  | nil => exact Option.map_id'.symm
  | cons i items ih =>
    rw [List.flatMap_cons, List.append_assoc]
    cases i with
    | option o =>
      have hrest := ih (fun x hx => ho x (List.mem_cons_of_mem o hx)) hn
      rw [Item.words, read_option (ho o List.mem_cons_self), hrest, Option.map_map]
      rfl
    | target d =>
      have hrest := ih ho fun x hx => hn x (List.mem_cons_of_mem d hx)
      rw [Item.words, read_target, hrest, Option.map_map]
      rfl
    | operand s =>
      have hrest := ih ho fun x hx => hn x (List.mem_cons_of_mem s hx)
      rw [Item.words, List.singleton_append, read_operand (hn s List.mem_cons_self).2, hrest, Option.map_map]
      rfl

end Read

section Scan

variable {tool : Tool} {site : Site} {command : Str}

theorem kept_cons (o : List Str) (os : List (List Str)) :
    kept command (o :: os) = kept command [o] ++ kept command os := by
  unfold kept
  split
  · exact List.filter_append [o] os
  · rfl

theorem kept_sub {os : List (List Str)} : ∀ o ∈ kept command os, o ∈ os := by
  intro o ho
  unfold kept at ho
  split at ho
  · exact List.mem_of_mem_filter ho
  · exact ho

theorem Tool.PlainOption.passed {o : List Str} (ho : tool.PlainOption site o) : Passed o := by
  cases ho with
  | flag _ hhead _ _ ht harg => exact .flag hhead ht harg
  | argument _ _ harg => exact .argument harg

theorem scan_option {o : List Str} (ho : Passed o) (s : Scan) (tail : List Str) :
    scan command s (o ++ tail) =
      scan command { s with newcommand := s.newcommand ++
      (kept command [o]).flatten.flatMap (' ' :: ·) } tail := by
  cases ho with
  | @flag w hhead ht harg =>
    rw [List.singleton_append, scan.eq_def]
    dsimp only
    rw [if_neg harg]
    by_cases hstrip : w = "-s".toList ∨ w = "--strip".toList
    · have his : isStrip [w] = true := by simpa [isStrip] using hstrip
      rw [if_pos hstrip, kept]
      split <;> simp [his]
    · have his : isStrip [w] = false := by simpa [isStrip] using hstrip
      rw [if_neg hstrip, if_neg ht, if_pos hhead, kept]
      split <;> simp [his]
  | @argument w a harg =>
    have his : isStrip [w, a] = false := by simp [isStrip]
    have hkept : kept command [[w, a]] = [[w, a]] := by
      unfold kept
      split <;> simp [his]
    rw [List.cons_append, scan.eq_def]
    dsimp only
    rw [if_pos harg, hkept]
    simp

theorem scan_name {w : Str} (hw : IsName w) (s : Scan) (tail : List Str) :
    scan command s (w :: tail) = scan command (s.operand w) tail := by
  have harg : w ∉ withArgument := fun h => hw.2 (withArgument_option w h).2.2.1
  have hshort : w ≠ "-s".toList := fun h => hw.2 (by rw [h]; rfl)
  have hlong : w ≠ "--strip".toList := fun h => hw.2 (by rw [h]; rfl)
  have ht : w ≠ "-t".toList := fun h => hw.2 (by rw [h]; rfl)
  rw [scan.eq_def]
  dsimp only
  rw [if_neg harg, if_neg (not_or.mpr ⟨hshort, hlong⟩), if_neg ht, if_neg hw.2]

theorem scan_names {ws : List Str} (hws : ∀ w ∈ ws, IsName w) (s : Scan) :
    scan command s ws = ws.foldl Scan.operand s := by
  induction ws generalizing s with
  | nil => rfl
  | cons w ws ih =>
    rw [scan_name (hws w List.mem_cons_self), ih fun x hx => hws x (List.mem_cons_of_mem w hx)]
    rfl

theorem scan_skip (s : Scan) (tail : List Str) :
    scan command s ("-t".toList :: tail) = scan command s tail := by
  rw [scan.eq_def]
  dsimp only
  rw [if_neg (by decide), if_neg (by decide), if_pos rfl]

theorem operand_newcommand (s : Scan) (text w : Str) :
    ({ s with newcommand := (s.operand w).newcommand ++ text } : Scan).operand w =
      { s.operand w with newcommand := (s.operand w).newcommand ++ text } := by
  unfold Scan.operand
  split <;> rfl

theorem newcommand_operand (s : Scan) (w : Str) : (s.operand w).newcommand = s.newcommand := by
  unfold Scan.operand
  split <;> rfl

theorem scan_items {items : List Item} (ho : ∀ o ∈ items.filterMap Item.option?, tool.PlainOption site o)
    (hn : ∀ s ∈ items.filterMap Item.name?, IsName s) (s : Scan) (tail : List Str) :
    scan command s (items.flatMap Item.words ++ tail) =
      scan command ((items.filterMap Item.name?).foldl Scan.operand
        { s with newcommand := s.newcommand ++
            (kept command (items.filterMap Item.option?)).flatten.flatMap (' ' :: ·) }) tail := by
  induction items generalizing s with
  | nil =>
    have hnil : kept command [] = [] := by simp [kept]
    simp [hnil]
  | cons i items ih =>
    rw [List.flatMap_cons, List.append_assoc]
    cases i with
    | option o =>
      have hrest := ih (fun x hx => ho x (List.mem_cons_of_mem o hx)) hn
      rw [Item.words, scan_option (ho o List.mem_cons_self).passed, hrest,
        List.filterMap_cons_some (rfl : (Item.option o).option? = some o),
        List.filterMap_cons_none (rfl : (Item.option o).name? = none), kept_cons o (List.filterMap _ _),
        List.flatten_append, List.flatMap_append, List.append_assoc]
    | target d =>
      have hrest := ih ho fun x hx => hn x (List.mem_cons_of_mem d hx)
      rw [Item.words, List.cons_append, scan_skip, List.singleton_append, scan_name (hn d List.mem_cons_self),
        hrest, List.filterMap_cons_none (rfl : (Item.target d).option? = none),
        List.filterMap_cons_some (rfl : (Item.target d).name? = some d), List.foldl_cons,
        ← newcommand_operand s d, operand_newcommand]
    | operand w =>
      have hrest := ih ho fun x hx => hn x (List.mem_cons_of_mem w hx)
      rw [Item.words, List.singleton_append, scan_name (hn w List.mem_cons_self),
        hrest, List.filterMap_cons_none (rfl : (Item.operand w).option? = none),
        List.filterMap_cons_some (rfl : (Item.operand w).name? = some w), List.foldl_cons,
        ← newcommand_operand s w, operand_newcommand]

/-- The last word is the destination. -/
theorem foldl_operand {ws : List Str} (hws : ∀ w ∈ ws, w ≠ []) (text : Str) :
    ws.foldl Scan.operand ⟨text, [], []⟩ = ⟨text, ws.dropLast, ws.getLastD []⟩ := by
  have hmore : ∀ (ws ss : List Str) (d : Str), d ≠ [] → (∀ w ∈ ws, w ≠ []) →
      ws.foldl Scan.operand ⟨text, ss, d⟩ = ⟨text, ss ++ (d :: ws).dropLast, ws.getLastD d⟩ := by
    intro ws
    induction ws with
    | nil =>
      intro ss d _ _
      rw [List.dropLast_singleton, List.append_nil]
      rfl
    | cons w ws ih =>
      intro ss d hd hws
      rw [List.foldl_cons, Scan.operand, if_pos hd,
        ih _ _ (hws w List.mem_cons_self) fun x hx => hws x (List.mem_cons_of_mem w hx),
        List.getLastD_cons, List.append_assoc]
      rfl
  cases ws with
  | nil => rfl
  | cons w ws =>
    have hrest := hmore ws [] w (hws w List.mem_cons_self) fun x hx => hws x (List.mem_cons_of_mem w hx)
    rw [List.getLastD_cons]
    exact hrest

end Scan

section Line

variable {tool : Tool} {site : Site} {line : Line}

theorem Line.Plain.item (h : line.Plain tool site) : ∀ s ∈ line.items.filterMap Item.name?, IsName s :=
  fun s hs => h.names s (List.mem_append_left _ hs)

theorem Line.Plain.behind (h : line.Plain tool site) : ∀ s ∈ line.rest.getD [], IsName s :=
  fun s hs => h.names s (List.mem_append_right _ hs)

theorem Line.Plain.option (h : line.Plain tool site) : ∀ o ∈ line.options, tool.PlainOption site o :=
  fun o ho => (h.options o ho).1

/-- The real command reads the line as it is written. -/
theorem read_line (h : line.Plain tool site) :
    read tool.takes line.words = some ⟨line.options, line.targets, line.operands⟩ := by
  rw [Line.words, read_items h.option h.item, read_stop line fun s hs => (h.behind s hs).2]
  simp [Line.options, Line.targets, Line.operands]

theorem scan_stop (command : Str) (line : Line) {ops : List Str} (hops : ∀ s ∈ ops, IsName s) (s : Scan) :
    scan command s (line.stop ++ ops) =
      ops.foldl Scan.operand { s with newcommand := s.newcommand ++ line.stop.flatMap (' ' :: ·) } := by
  unfold Line.stop
  split
  · rw [List.singleton_append, scan.eq_def]
    dsimp only
    rw [if_neg (by decide), if_neg (by decide), if_neg (by decide), if_pos (by decide), scan_names hops]
    simp
  · rw [List.nil_append, scan_names hops]
    simp

/-- The wrapper collects the options, and the names with the last one as the destination. -/
theorem scan_line (h : line.Plain tool site) (command : Str) :
    scan command ⟨command, [], []⟩ line.words =
      ⟨command ++ (line.passed command).flatMap (' ' :: ·), line.names.dropLast, line.names.getLastD []⟩ := by
  have hitems : ∀ s ∈ line.items.filterMap Item.name?, s ≠ [] := fun s hs => (h.item s hs).1
  have hnames : ∀ s ∈ line.names, s ≠ [] := fun s hs => (h.names s hs).1
  rw [Line.words, scan_items h.option h.item, scan_stop command line h.behind, foldl_operand hitems]
  dsimp only
  rw [← foldl_operand hitems, ← List.foldl_append, ← Line.names, foldl_operand hnames, Line.passed,
    List.flatMap_append, List.append_assoc, ← Line.options]

/-- The words that the wrapper has put together come apart again. -/
theorem splitGlob_newcommand (h : line.Plain tool site) :
    splitGlob site.ifs site.glob (tool.name ++ (line.passed tool.name).flatMap (' ' :: ·)) =
      tool.name :: line.passed tool.name := by
  refine splitGlob_words h.blank fun w hw => ?_
  rcases List.mem_cons.mp hw with rfl | hw
  · exact h.command
  · rcases List.mem_append.mp hw with hw | hw
    · obtain ⟨o, ho, hw⟩ := List.mem_flatten.mp hw
      cases h.option o (kept_sub o ho) with
      | flag hflag =>
        rw [List.mem_singleton.mp hw]
        exact hflag
      | argument hword harg =>
        rcases List.mem_cons.mp hw with rfl | hw
        · exact hword
        · rw [List.mem_singleton.mp hw]
          exact harg
    · unfold Line.stop at hw
      split at hw
      next hstop =>
        rw [List.mem_singleton.mp hw]
        exact h.stop hstop
      next => cases hw

/-- A command of the wrapper is read as the options that it passes on and the operands. -/
theorem run_passed (h : line.Plain tool site) {ops : List Str} (hops : ∀ s ∈ ops, s.head? ≠ some '-') :
    tool.run site (tool.name :: line.passed tool.name ++ ops) =
      tool.effects site ⟨kept tool.name line.options, [], ops⟩ := by
  have hoptions : ∀ o ∈ kept tool.name line.options, tool.PlainOption site o := fun o ho =>
    h.option o (kept_sub o ho)
  have hread := read_options hoptions (line.stop ++ ops)
  rw [List.cons_append, Tool.run, if_pos rfl, Line.passed, List.append_assoc, hread, read_stop line hops]
  simp

theorem has_kept {role : Role} (hrole : role ≠ .plain) (os : List (List Str)) :
    tool.has (kept tool.name os) role = tool.has os role := by
  unfold kept
  split
  next hinstall =>
    rw [Tool.has, Tool.has, List.any_filter]
    refine List.any_congr rfl fun o => ?_
    by_cases hstrip : isStrip o = true
    · have hplain : (tool.role o == role) = false := by
        rw [tool.strip hinstall o hstrip]
        simpa using hrole.symm
      rw [hplain, Bool.and_false]
    · simp [hstrip]
  next => rfl

theorem source_kept (os : List (List Str)) (s : Str) :
    tool.source site (kept tool.name os) s = tool.source site os s := by
  rw [Tool.source, Tool.source, has_kept (by decide)]

/-- The options do not matter to what is done with the operands, except for their kinds. -/
theorem effects_kept {l : CommandLine} (hother : tool.has l.options .other = false) :
    (tool.effects site l).map (fun e => { e with options := kept tool.name e.options }) =
      tool.effects site { l with options := kept tool.name l.options } := by
  have hinto (dir : List Str) (ss : List Str) :
      (ss.map (tool.copyInto site l.options dir)).map
          (fun e : Effect => { e with options := kept tool.name e.options }) =
        ss.map (tool.copyInto site (kept tool.name l.options) dir) := by
    rw [List.map_map]
    refine List.map_congr_left fun s _ => ?_
    simp [Tool.copyInto, source_kept]
  have hcopies : (tool.copies site l.options l.operands).map
        (fun e : Effect => { e with options := kept tool.name e.options }) =
      tool.copies site (kept tool.name l.options) l.operands := by
    unfold Tool.copies
    dsimp only
    split
    · split
      · exact hinto _ _
      · rfl
    · split
      · exact hinto _ _
      · split
        · split
          · rfl
          · simp [Tool.copyTo, source_kept]
        · rfl
  unfold Tool.effects
  dsimp only
  rw [has_kept (by decide), has_kept (by decide), hother]
  simp only [Bool.false_eq_true, if_false]
  split
  · split
    · rw [List.map_map]
      rfl
    · rfl
  · split
    · exact hcopies
    · split
      · exact hinto _ _
      · rfl
    · rfl

/-- The options that the commands of the wrapper have. -/
def Line.given (line : Line) (tool : Tool) : List (List Str) := kept tool.name line.options

theorem given_other (h : line.Plain tool site) : tool.has (line.given tool) .other = false := by
  rw [Line.given, has_kept (by decide), Tool.has, List.any_eq_false]
  intro o ho
  simpa using (h.options o ho).2

theorem wanted_line (h : line.Plain tool site) :
    tool.wanted site line.words = tool.effects site ⟨line.given tool, line.targets, line.operands⟩ := by
  have hother : tool.has line.options .other = false := by
    rw [← has_kept (by decide : Role.other ≠ .plain)]
    exact given_other h
  rw [Tool.wanted, Tool.run, if_pos rfl, read_line h]
  exact effects_kept hother

end Line

end T2SDE.Install
