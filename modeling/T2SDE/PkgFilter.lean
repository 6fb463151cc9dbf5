import T2SDE.PkgListFile
import T2SDE.PkgSel

namespace T2SDE

open Text Lua

abbrev Stages := { s : Str // s ≠ [] ∧ ∀ c ∈ s, stageChar c = true }

def PkgLine.withStages (l : PkgLine) (stages : Stages) : PkgLine :=
  { l with stages := stages.1, stages_ok := stages.2 }

def PkgLine.withStatus (l : PkgLine) (status : Selection) : PkgLine := { l with status }

/-- The lines behind a filter: each one is deleted or has its stages written. -/
def edited : List PkgLine → List (Option Stages) → List PkgLine
  | l :: lines, some stages :: edits => l.withStages stages :: edited lines edits
  | _ :: lines, none :: edits => edited lines edits
  | _, _ => []

/-- A command that deletes lines or rewrites the stages column only. -/
structure Filter where
  cmd : Str → Str
  edits : List PkgLine → List (Option Stages)
  cmd_lines : ∀ lines, cmd (listText lines) = listText (edited lines (edits lines))

/-- `pkgfilter`; none where the writing stops with an error. -/
def pkgfilter (cmd : Str → Str) (st : LuaState) : Option LuaState :=
  (pkglistwrite st.packages).map fun text => pkglistread (cmd text) st

def pkgin (file : Str) (st : LuaState) : LuaState := pkglistread file st

inductive Call
  | enable (args : List Str)
  | disable (args : List Str)
  | remove (args : List Str)
  | sel (filename : Str)
  | filter (f : Filter)

section Calls

variable (fs : Str → Option Str) (handles : Nat)

def Call.run (st : LuaState) : Call → Option LuaState
  | .enable args => some { st with packages := (pkgenable args st.packages).state }
  | .disable args => some { st with packages := (pkgdisable args st.packages).state }
  | .remove args => some { st with packages := (pkgremove args st.packages).state }
  | .sel filename => some (pkgselParse fs handles filename st).state
  | .filter f => pkgfilter f.cmd st

def runCalls : List Call → LuaState → Option LuaState
  | [], st => some st
  | call :: calls, st => (call.run fs handles st).bind (runCalls calls)

/-- A filter reads no package back whose status is not its default one. -/
def Settled (st : LuaState) : Call → Prop
  | .filter f => ∀ written, pkglistwrite st.packages = some (listText written) →
      ∀ x ∈ (st.packages.filter (·.status ≠ .removed)).zip (f.edits written),
        x.2.isSome → x.1.status = .selected x.1.defaultStatus
  | _ => True

def RunSettled : List Call → LuaState → Prop
  | [], _ => True
  | call :: calls, st => Settled st call ∧ ∀ st', call.run fs handles st = some st' → RunSettled calls st'

end Calls

/-- A package of the table: its line in the generated list, its stages and its status. -/
structure Entry where
  line : PkgLine
  stages : Stages
  status : Status

def Entry.package (e : Entry) : Package :=
  { e.line.package with stages := e.stages.1, status := e.status }

def Entry.written (e : Entry) : Option PkgLine :=
  match e.status with
  | .removed => none
  | .selected s => some ((e.line.withStages e.stages).withStatus s)

/-- The packages stem from generated lines, in their order; only stages and status may differ. -/
def Stems (lines : List PkgLine) (packages : List Package) : Prop :=
  ∃ entries : List Entry, (entries.map Entry.line).Sublist lines ∧ packages = entries.map Entry.package

def Entry.switch (e : Entry) (mode : Mode) : Entry :=
  if e.status ≠ .removed then { e with status := mode.status e.package } else e

theorem Entry.switch_package (e : Entry) (mode : Mode) :
    (e.switch mode).package = e.package.switch mode := by
  unfold Entry.switch Package.switch
  have hstatus : e.package.status = e.status := rfl
  rw [hstatus]
  split_ifs <;> rfl

theorem Entry.switch_line (e : Entry) (mode : Mode) : (e.switch mode).line = e.line := by
  unfold Entry.switch
  split_ifs <;> rfl

def Restated (entries : List Entry) (packages : List Package) : Prop :=
  ∃ entries' : List Entry, entries'.map Entry.line = entries.map Entry.line ∧
    packages = entries'.map Entry.package

theorem Restated.refl (entries : List Entry) : Restated entries (entries.map Entry.package) :=
  ⟨entries, rfl, rfl⟩

theorem Restated.cons {entries : List Entry} {packages : List Package} (h : Restated entries packages)
    {e e' : Entry} (hline : e'.line = e.line) : Restated (e :: entries) (e'.package :: packages) := by
  obtain ⟨entries', hlines, rfl⟩ := h
  exact ⟨e' :: entries', by simp [hline, hlines], rfl⟩

theorem switchLoop_restated (mode : Mode) (rep pkg : Str) (pkgMatch : Bool) (entries : List Entry) :
    Restated entries (switchLoop mode rep pkg pkgMatch (entries.map Entry.package)).state := by
  induction entries with
  | nil => exact .refl []
  | cons e entries ih =>
    rw [List.map_cons, switchLoop]
    cases packageMatches rep pkg e.package with
    | none => exact .refl (e :: entries)
    | some hit =>
      cases hit with
      | false => exact ih.cons rfl
      | true =>
        rw [← e.switch_package]
        cases pkgMatch with
        | false => exact ih.cons (e.switch_line mode)
        | true => exact (Restated.refl entries).cons (e.switch_line mode)

section Stems

variable {lines : List PkgLine}

theorem Stems.pkgswitch (mode : Mode) (args : List Str) {packages : List Package}
    (h : Stems lines packages) : Stems lines (pkgswitch mode args packages).state := by
  induction args generalizing packages with
  | nil => exact h
  | cons arg args ih =>
    obtain ⟨entries, hlines, rfl⟩ := h
    obtain ⟨entries', hsame, hloop⟩ := switchLoop_restated mode (expand (splitArg arg).1)
      (expand (splitArg arg).2) (strMatches (expand (splitArg arg).2) "*".toList = some false) entries
    unfold T2SDE.pkgswitch
    refine Outcome.andThen_inv (Stems lines) ?_ fun _ => ih
    exact ⟨entries', hsame ▸ hlines, hloop⟩

theorem Stems.pkgselParse (fs : Str → Option Str) (handles : Nat) (filename : Str) {st : LuaState}
    (h : Stems lines st.packages) : Stems lines (pkgselParse fs handles filename st).state.packages :=
  pkgselParse_inv (fun mode args _ => Stems.pkgswitch mode args) fs handles filename h

end Stems

theorem Entry.written_removed {e : Entry} (h : e.status = .removed) : e.written = none := by
  rw [written, h]

theorem Entry.written_selected {e : Entry} {s : Selection} (h : e.status = .selected s) :
    e.written = some ((e.line.withStages e.stages).withStatus s) := by
  rw [written, h]

theorem pkglistwrite_entries (entries : List Entry) :
    pkglistwrite (entries.map Entry.package) = some (listText (entries.filterMap Entry.written)) := by
  induction entries with
  | nil => rfl
  | cons e entries ih =>
    rw [List.map_cons, pkglistwrite]
    cases hs : e.status with
    | removed =>
      have hstatus : e.package.status = .removed := hs
      rw [hstatus, List.filterMap_cons_none (Entry.written_removed hs)]
      exact ih
    | selected s =>
      have hstatus : e.package.status = .selected s := hs
      have hsame : writePackage e.package s =
          writePackage ((e.line.withStages e.stages).withStatus s).package s := rfl
      have hline := ((e.line.withStages e.stages).withStatus s).write_package
      rw [hstatus, List.filterMap_cons_some (Entry.written_selected hs), ih]
      dsimp only
      rw [hsame]
      refine (congrArg (Option.bind · _) hline).trans ?_
      rfl

theorem edited_stems {entries : List Entry} {edits : List (Option Stages)}
    (h : ∀ x ∈ ((entries.map Entry.package).filter (·.status ≠ .removed)).zip edits,
      x.2.isSome → x.1.status = .selected x.1.defaultStatus) :
    ∃ entries' : List Entry, (entries'.map Entry.line).Sublist (entries.map Entry.line) ∧
      (edited (entries.filterMap Entry.written) edits).map PkgLine.package = entries'.map Entry.package := by
  induction entries generalizing edits with
  | nil => exact ⟨[], by simp, by cases edits <;> rfl⟩
  | cons e entries ih =>
    cases hs : e.status with
    | removed =>
      have hstatus : e.package.status = .removed := hs
      rw [List.map_cons, List.filter_cons_of_neg (by simp [hstatus])] at h
      obtain ⟨entries', hlines, hedited⟩ := ih h
      rw [List.filterMap_cons_none (Entry.written_removed hs)]
      exact ⟨entries', hlines.cons e.line, hedited⟩
    | selected s =>
      have hstatus : e.package.status = .selected s := hs
      rw [List.map_cons, List.filter_cons_of_pos (by simp [hstatus])] at h
      rw [List.filterMap_cons_some (Entry.written_selected hs)]
      cases edits with
      | nil => exact ⟨[], by simp, rfl⟩
      | cons edit edits =>
        rw [List.zip_cons_cons, List.forall_mem_cons] at h
        obtain ⟨entries', hlines, hedited⟩ := ih h.2
        cases edit with
        | none => exact ⟨entries', hlines.cons e.line, hedited⟩
        | some stages =>
          have hdefault : s = e.line.status := by
            have := h.1 rfl
            rw [hstatus] at this
            exact Status.selected.inj this
          subst hdefault
          refine ⟨⟨e.line, stages, .selected e.line.status⟩ :: entries', hlines.cons_cons e.line, ?_⟩
          rw [edited, List.map_cons, hedited]
          rfl

theorem pkgfilter_stems {lines : List PkgLine} {f : Filter} {st : LuaState} (hstems : Stems lines st.packages)
    (h : Settled st (.filter f)) :
    ∃ st', pkgfilter f.cmd st = some st' ∧ Stems lines st'.packages := by
  obtain ⟨entries, hlines, hpackages⟩ := hstems
  have hwrite : pkglistwrite st.packages = some (listText (entries.filterMap Entry.written)) := by
    rw [hpackages, pkglistwrite_entries]
  have hdefault := h _ hwrite
  rw [hpackages] at hdefault
  obtain ⟨entries', hlines', hedited⟩ := edited_stems hdefault
  refine ⟨_, by rw [pkgfilter, hwrite, Option.map_some, f.cmd_lines, pkglistread_listText], ?_⟩
  exact ⟨entries', hlines'.trans hlines, hedited⟩

theorem Call.run_stems {lines : List PkgLine} (fs : Str → Option Str) (handles : Nat) {st : LuaState}
    (hstems : Stems lines st.packages) {call : Call} (h : Settled st call) :
    ∃ st', call.run fs handles st = some st' ∧ Stems lines st'.packages := by
  cases call with
  | enable args => exact ⟨_, rfl, hstems.pkgswitch _ args⟩
  | disable args => exact ⟨_, rfl, hstems.pkgswitch _ args⟩
  | remove args => exact ⟨_, rfl, hstems.pkgswitch _ args⟩
  | sel filename => exact ⟨_, rfl, hstems.pkgselParse fs handles filename⟩
  | filter f => exact pkgfilter_stems hstems h

theorem runCalls_stems {lines : List PkgLine} (fs : Str → Option Str) (handles : Nat) {calls : List Call}
    {st : LuaState} (hstems : Stems lines st.packages) (h : RunSettled fs handles calls st) :
    ∃ st', runCalls fs handles calls st = some st' ∧ Stems lines st'.packages := by
  induction calls generalizing st with
  | nil => exact ⟨st, rfl, hstems⟩
  | cons call calls ih =>
    obtain ⟨st', hrun, hstems'⟩ := call.run_stems fs handles hstems h.1
    rw [runCalls, hrun, Option.bind_some]
    exact ih hstems' (h.2 st' hrun)

theorem pkgin_stems (lines : List PkgLine) (st : LuaState) :
    Stems lines (pkgin (listText lines) st).packages := by
  refine ⟨lines.map fun l => ⟨l, ⟨l.stages, l.stages_ok⟩, .selected l.status⟩, ?_, ?_⟩
  · rw [List.map_map]
    exact (List.map_id lines).symm ▸ List.Sublist.refl lines
  · rw [pkgin, pkglistread_listText, List.map_map]
    rfl

/-- If every filter of a run leaves only packages with their default status, each package has its
generated status as the default one, and `=` sets it again. -/
theorem default_restored (fs : Str → Option Str) (handles : Nat) {lines : List PkgLine} {start : LuaState}
    {calls : List Call} (h : RunSettled fs handles calls (pkgin (listText lines) start)) :
    ∃ (st : LuaState) (entries : List Entry),
      runCalls fs handles calls (pkgin (listText lines) start) = some st ∧
      (entries.map Entry.line).Sublist lines ∧ st.packages = entries.map Entry.package ∧
      st.packages.map Package.defaultStatus = entries.map (·.line.status) ∧
      ∀ pattern, Reaches pattern st.packages →
        pkgswitch .default [pattern] st.packages =
          ⟨entries.map fun e =>
            if patternMatches pattern e.package = some true ∧ e.status ≠ .removed then
              { e.package with status := .selected e.line.status }
            else e.package, false⟩ := by
  obtain ⟨st, hrun, entries, hlines, hpackages⟩ := runCalls_stems fs handles (pkgin_stems lines start) h
  refine ⟨st, entries, hrun, hlines, hpackages, ?_, ?_⟩
  · rw [hpackages, List.map_map]
    rfl
  · intro pattern hreaches
    rw [pkgswitch_reaches hreaches, hpackages, List.map_map]
    congr 1
    apply List.map_congr_left
    intro e _
    have hstatus : e.package.status = e.status := rfl
    simp only [Function.comp, Package.switch, hstatus, ite_and]
    rfl

def cat : Filter where
  cmd := id
  edits := fun lines => lines.map fun l => some ⟨l.stages, l.stages_ok⟩
  cmd_lines := by
    intro lines
    induction lines with
    | nil => rfl
    | cons l lines ih =>
      have ih : listText lines =
        listText (edited lines (lines.map fun l => some ⟨l.stages, l.stages_ok⟩)) := ih
      rw [List.map_cons, edited, id, listText, List.flatMap_cons, ← listText, ih]
      rfl

def gccLine : PkgLine where
  status := .on
  stages := "01---5---9".toList
  priority := "101.000".toList
  repository := "base".toList
  name := "gcc".toList
  ver := "9.3.0".toList
  extraver := none
  categories := ["base/development".toList]
  flags := ["CROSS".toList]
  stages_ok := ⟨by simp, List.all_eq_true.mp (by decide)⟩
  priority_ok := ⟨by simp, List.all_eq_true.mp (by decide)⟩
  repository_ok := by decide
  name_ok := by decide
  ver_ok := by decide
  extraver_ok := by simp
  categories_ne := by simp
  categories_ok := by
    rw [List.forall_mem_singleton]
    exact ⟨⟨'b', "ase/development".toList, rfl, rfl⟩, List.all_eq_true.mp (by decide)⟩
  flags_ok := by
    rw [List.forall_mem_singleton]
    exact ⟨⟨'C', "ROSS".toList, rfl, rfl⟩, List.all_eq_true.mp (by decide)⟩

theorem default_restored_sample : ∃ (st : LuaState) (entries : List Entry),
    runCalls (fun _ => none) 0 [.filter cat, .disable ["gcc".toList]]
      (pkgin (listText [gccLine]) ⟨[], []⟩) = some st ∧
    (entries.map Entry.line).Sublist [gccLine] ∧ st.packages = entries.map Entry.package ∧
    st.packages.map Package.defaultStatus = entries.map (·.line.status) ∧
    ∀ pattern, Reaches pattern st.packages →
      pkgswitch .default [pattern] st.packages =
        ⟨entries.map fun e =>
          if patternMatches pattern e.package = some true ∧ e.status ≠ .removed then
            { e.package with status := .selected e.line.status }
          else e.package, false⟩ := by
  apply default_restored
  refine ⟨?_, fun _ _ => ⟨trivial, fun _ _ => trivial⟩⟩
  intro written _ x hx _
  have hp := List.mem_of_mem_filter (List.of_mem_zip hx).1
  rw [pkgin, pkglistread_listText] at hp
  rw [List.mem_singleton.mp hp]
  rfl

theorem gcc_switched (mode : Mode) (l : PkgLine) (hname : l.name = "gcc".toList) :
    patternMatches "gcc".toList l.package = some true ∧
      pkgswitch mode ["gcc".toList] [l.package] = ⟨[l.package.switch mode], false⟩ := by
  have hpattern : RulePattern "gcc".toList := by decide
  have hnames : ([l.package].map Package.aliasName).Nodup := by simp
  have hcovers : (Rule.mk mode "gcc".toList).covers l.package = true := by
    have hglobs : patternGlobs "gcc".toList = (['*'], "gcc".toList) := rfl
    rw [Rule.covers, hglobs, glob_any, Bool.true_and, glob_literal (by decide)]
    exact hname
  constructor
  · have hmatches := patternMatches_eq (r := ⟨mode, "gcc".toList⟩) hpattern l.package
    rwa [hcovers] at hmatches
  · have hswitch := pkgswitch_rule (r := ⟨mode, "gcc".toList⟩) hpattern hnames
    rwa [List.map_singleton, Package.apply, if_pos hcovers] at hswitch

/-- A disabled package that a filter passes on is read back with its new status as the default. -/
theorem filter_loses_default : ∃ st : LuaState,
    runCalls (fun _ => none) 0 [.disable ["gcc".toList], .filter cat]
      (pkgin (listText [gccLine]) ⟨[], []⟩) = some st ∧
    st.packages.map (fun p => (p.name, p.status)) = [(gccLine.name, .selected .off)] ∧
    (∀ p ∈ st.packages, patternMatches "gcc".toList p = some true) ∧ gccLine.status = .on ∧
    (pkgswitch .default ["gcc".toList] st.packages).state.map Package.status = [.selected .off] := by
  let off : Entry := ⟨gccLine, ⟨gccLine.stages, gccLine.stages_ok⟩, .selected .off⟩
  have hdisable : pkgdisable ["gcc".toList] [gccLine.package] = ⟨[off.package], false⟩ :=
    (gcc_switched _ gccLine rfl).2
  have hfilter : pkgfilter id ⟨[off.package], []⟩ = some ⟨[(gccLine.withStatus .off).package], []⟩ := by
    have hwrite : pkglistwrite [off.package] = some (listText [gccLine.withStatus .off]) :=
      pkglistwrite_entries [off]
    rw [pkgfilter, hwrite, Option.map_some, id, pkglistread_listText]
    rfl
  obtain ⟨hmatches, hdefault⟩ := gcc_switched .default (gccLine.withStatus .off) rfl
  refine ⟨⟨[(gccLine.withStatus .off).package], []⟩, ?_, rfl, ?_, rfl, ?_⟩
  · rw [pkgin, pkglistread_listText, runCalls, Call.run, List.map_singleton]
    dsimp only
    rw [hdisable, Option.bind_some, runCalls, Call.run]
    exact congrArg (Option.bind · _) hfilter
  · rw [List.forall_mem_singleton]
    exact hmatches
  · rw [hdefault]
    rfl

end T2SDE
