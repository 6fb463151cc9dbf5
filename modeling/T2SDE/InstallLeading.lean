import T2SDE.InstallCopies

namespace T2SDE.Install

open Text PathName ShellFields

section Read

variable {tool : Tool} {d d' : Str}

/-- The last word is an operand behind a word that is no option, whatever is in front. -/
theorem read_last (tool : Tool) (hd : d.head? ≠ some '-') (hd' : d'.head? ≠ some '-') (ws : List Str)
    (hlast : ∀ w ∈ ws.getLast?, w.head? ≠ some '-') :
    ∃ os ts ops, read tool.takes (ws ++ [d]) = some ⟨os, ts, ops ++ [d]⟩ ∧
      read tool.takes (ws ++ [d']) = some ⟨os, ts, ops ++ [d']⟩ := by
  induction hn : ws.length using Nat.strong_induction_on generalizing ws with
  | h n ih =>
    rcases ws with _ | ⟨w, rest⟩
    · have hsingle : ∀ x : Str, x.head? ≠ some '-' → read tool.takes [x] = some ⟨[], [], [x]⟩ := fun x hx =>
        read_operands fun s hs => List.mem_singleton.mp hs ▸ hx
      exact ⟨[], [], [], hsingle d hd, hsingle d' hd'⟩
    · have hrest : ∀ v ∈ rest.getLast?, v.head? ≠ some '-' := by
        intro v hv
        refine hlast v ?_
        rw [List.getLast?_cons, hv]
        rfl
      -- an option at the end would take the last word
      have hmore : w.head? = some '-' → ∃ a rest', rest = a :: rest' ∧ ∀ v ∈ rest'.getLast?,
        v.head? ≠ some '-' := by
        intro hw
        rcases rest with _ | ⟨a, rest'⟩
        · exact absurd hw (hlast w rfl)
        · refine ⟨a, rest', rfl, fun v hv => hrest v ?_⟩
          rw [List.getLast?_cons, hv]
          rfl
      simp only [List.cons_append]
      rw [read.eq_def, read.eq_def tool.takes (w :: (rest ++ [d']))]
      dsimp only
      by_cases hstop : w = "--".toList
      · exact ⟨[], [], rest, if_pos hstop, if_pos hstop⟩
      · simp only [if_neg hstop]
        by_cases ht : w = "-t".toList
        · obtain ⟨a, rest', rfl, hlast'⟩ := hmore (by rw [ht]; rfl)
          obtain ⟨os, ts, ops, hread, hread'⟩ := ih rest'.length (by simp at hn; omega) rest' hlast' rfl
          simp only [if_pos ht, List.cons_append, hread, hread']
          exact ⟨os, a :: ts, ops, rfl, rfl⟩
        · simp only [if_neg ht]
          obtain ⟨os, ts, ops, hread, hread'⟩ := ih rest.length (by simp at hn; omega) rest hrest rfl
          split
          next hoption =>
            split
            · obtain ⟨a, rest', rfl, hlast'⟩ := hmore hoption.1
              obtain ⟨os, ts, ops, hread, hread'⟩ := ih rest'.length (by simp at hn; omega) rest' hlast' rfl
              simp only [List.cons_append, hread, hread']
              exact ⟨[w, a] :: os, ts, ops, rfl, rfl⟩
            · rw [hread, hread']
              exact ⟨[w] :: os, ts, ops, rfl, rfl⟩
          next =>
            rw [hread, hread']
            exact ⟨os, ts, w :: ops, rfl, rfl⟩

end Read

/-- An absolute destination is as good as another one, and nothing depends on stripping. -/
def Tool.Indifferent (tool : Tool) (site : Site) (options : List (List Str)) : Prop :=
  ∀ ops d, d ≠ [] → tool.special site ⟨options, [], ops ++ [site.absolute d]⟩ =
    (tool.special site ⟨options, [], ops ++ [d]⟩).map fun e => { e with options := kept tool.name e.options }

/-- Whatever the options are, all of them are in front of the sources, and the destination is no directory. -/
structure Leading (tool : Tool) (site : Site) (front : List (List Str)) (ss : List Str) (d : Str) : Prop where
  blank : ' ' ∈ site.ifs
  command : site.Single tool.name
  passed : ∀ o ∈ front, Passed o ∧ ∀ w ∈ o, site.Single w
  kept : kept tool.name front = front
  sources : ss ≠ [] ∧ ∀ s ∈ ss, IsName s
  destination : IsName d ∧ site.dir d = false
  target : ∀ w ∈ front.flatten ++ (ss ++ [d]), ¬"--target-directory".toList <:+: w
  reads : ∃ l, read tool.takes (front.flatten ++ (ss ++ [d])) = some l ∧ l.targets = [] ∧
    Install.kept tool.name l.options = l.options ∧
    if tool.has l.options .other then tool.Indifferent site l.options
    else tool.has l.options .directories = true ∨ 2 ≤ l.operands.length

section Leading

variable {tool : Tool} {site : Site} {front : List (List Str)} {ss : List Str} {d : Str}

theorem scan_passed {command : Str} (hpassed : ∀ o ∈ front, Passed o) (s : Scan) (tail : List Str) :
    scan command s (front.flatten ++ tail) =
      scan command { s with newcommand := s.newcommand ++ (kept command front).flatten.flatMap (' ' :: ·) }
        tail := by
  induction front generalizing s with
  | nil =>
    have hnil : kept command [] = [] := by simp [kept]
    simp [hnil]
  | cons o os ih =>
    rw [List.flatten_cons, List.append_assoc, scan_option (hpassed o List.mem_cons_self),
      ih fun x hx => hpassed x (List.mem_cons_of_mem o hx), kept_cons o os, List.flatten_append,
      List.flatMap_append, List.append_assoc]

/-- The wrapper runs the command as it is, with an absolute destination. -/
theorem wrapper_leading (h : Leading tool site front ss d) :
    wrapperMain site tool.name (front.flatten ++ (ss ++ [d])) =
      [tool.name :: (front.flatten ++ (ss ++ [site.absolute d]))] := by
  have htarget : ¬∃ a ∈ front.flatten ++ (ss ++ [d]), "--target-directory".toList <:+: a :=
    fun ⟨a, ha, hin⟩ =>
    h.target a ha hin
  have hnames : ∀ s ∈ ss ++ [d], IsName s := by
    intro s hs
    rcases List.mem_append.mp hs with hs | hs
    · exact h.sources.2 s hs
    · exact List.mem_singleton.mp hs ▸ h.destination.1
  have hdest := h.destination.1.1
  have hlast : (ss ++ [d]).getLastD [] = d := by simp
  have hsplit : splitGlob site.ifs site.glob (tool.name ++ front.flatten.flatMap (' ' :: ·)) =
      tool.name :: front.flatten := by
    refine splitGlob_words h.blank fun w hw => ?_
    rcases List.mem_cons.mp hw with rfl | hw
    · exact h.command
    · obtain ⟨o, ho, hw⟩ := List.mem_flatten.mp hw
      exact (h.passed o ho).2 w hw
  rw [wrapperMain, if_neg htarget, scan_passed fun o ho => (h.passed o ho).1, h.kept, scan_names hnames,
    foldl_operand fun s hs => (hnames s hs).1]
  dsimp only
  rw [hsplit, List.dropLast_concat, hlast, if_neg (not_or.mpr ⟨absolute_ne_nil site hdest, h.sources.1⟩),
    dir_absolute hdest, h.destination.2, if_neg Bool.false_ne_true, List.cons_append, List.cons_append,
    List.append_assoc]

theorem effects_destination {os : List (List Str)} (hother : tool.has os .other = false) {ops : List Str}
    (hops : tool.has os .directories = true ∨ ops ≠ []) (hne : d ≠ []) (hdir : site.dir d = false) :
    tool.effects site ⟨os, [], ops ++ [site.absolute d]⟩ = tool.effects site ⟨os, [], ops ++ [d]⟩ := by
  have habs := absolute_ne_nil site hne
  cases hdirs : tool.has os .directories with
  | true =>
    have hnamed : ∀ x : Str, x ≠ [] → named (ops ++ [x]) = named ops ++ [x] := by
      intro x hx
      have hsingle : named [x] = [x] := named_eq fun s hs => List.mem_singleton.mp hs ▸ hx
      conv => rhs; rw [← hsingle]
      exact List.filter_append ops [x]
    rw [effects_directories hother hdirs, effects_directories hother hdirs, if_pos rfl, if_pos rfl,
      hnamed _ hne,
      hnamed _ habs, List.map_append, List.map_append, List.map_singleton, List.map_singleton, Site.makeDir,
      Site.makeDir, path_absolute hne]
  | false =>
    have hsome : ops ≠ [] := hops.resolve_left (by simp [hdirs])
    have hlast : ∀ x : Str, (ops ++ [x]).getLastD [] = x := fun x => by simp
    rw [effects_copies hother hdirs, effects_copies hother hdirs, Tool.copies, Tool.copies,
      List.dropLast_concat,
      List.dropLast_concat, hlast, hlast, if_neg hsome, if_neg hsome, dir_absolute hne, hdir,
      if_neg Bool.false_ne_true, if_neg Bool.false_ne_true]
    split
    · simp only [Tool.copyTo, path_absolute hne, habs, hne]
    · rfl

theorem leading_faithful (h : Leading tool site front ss d) :
    tool.Faithful site (front.flatten ++ (ss ++ [d])) := by
  obtain ⟨l, hread, htargets, hkept, hkind⟩ := h.reads
  have hdest := h.destination.1
  have habs : (site.absolute d).head? ≠ some '-' := by
    rw [head_absolute site hdest.1]
    decide
  have hlast : ∀ w ∈ (front.flatten ++ ss).getLast?, w.head? ≠ some '-' := by
    intro w hw
    rw [List.getLast?_append_of_ne_nil _ h.sources.1] at hw
    exact (h.sources.2 w (List.mem_of_getLast? hw)).2
  obtain ⟨os, ts, ops, hreal, hwrapped⟩ := read_last tool hdest.2 habs (front.flatten ++ ss) hlast
  rw [List.append_assoc] at hreal hwrapped
  obtain rfl : l = ⟨os, ts, ops ++ [d]⟩ := Option.some.inj (hread.symm.trans hreal)
  obtain rfl : ts = [] := htargets
  have hsame : (tool.effects site ⟨os, [], ops ++ [d]⟩).map
      (fun e => { e with options := kept tool.name e.options }) =
      tool.effects site ⟨os, [], ops ++ [site.absolute d]⟩ := by
    dsimp only at hkept hkind
    cases hother : tool.has os .other with
    | true =>
      rw [hother, if_pos rfl] at hkind
      rw [Tool.effects, Tool.effects]
      dsimp only
      rw [hother, if_pos rfl, if_pos rfl, hkind ops d hdest.1]
    | false =>
      rw [hother, if_neg Bool.false_ne_true] at hkind
      have hops : tool.has os .directories = true ∨ ops ≠ [] := by
        refine hkind.imp_right fun hlen => ?_
        rintro rfl
        simp at hlen
      rw [effects_kept hother, hkept, effects_destination hother hops hdest.1 h.destination.2]
  intro e
  rw [wrapper_leading h, List.flatMap_singleton, Tool.wanted, Tool.run, Tool.run, if_pos rfl, if_pos rfl,
    hreal,
    hwrapped, Option.map_some, Option.map_some, Option.getD_some, Option.getD_some, hsame]

end Leading

/-- On a command line of plain options the wrapper keeps the meaning of the original exactly where the last
name is the destination of both, and no name of a source in it is a directory; with other options it
does so where they come first and the destination is no directory. -/
theorem wrapper_faithful_iff (tool : Tool) (site : Site) :
    (∀ line : Line, line.Plain tool site → (tool.Faithful site line.words ↔ line.Fits tool site)) ∧
      ∀ front ss d, Leading tool site front ss d → tool.Faithful site (front.flatten ++ (ss ++ [d])) :=
  ⟨fun _ => plain_iff, fun _ _ _ => leading_faithful⟩

/-- The directory `/build`, with `/dest` as another one. -/
def sampleSite : Site where
  pwd := "/build".toList
  rooted := rfl
  isDir p := p == ["dest".toList]
  ifs := " \t\n".toList
  glob s := [s]

theorem sample_strip (option : List Str) (h : isStrip option = true) :
    (if option = ["-d".toList] then Role.directories else Role.plain) = .plain := by
  refine if_neg fun heq => ?_
  rw [heq] at h
  exact absurd h (by decide)

def sampleInstall : Tool where
  name := "install".toList
  takes w := w ∈ withArgument ∨ w = "-Dm".toList
  role option := if option = ["-d".toList] then .directories else .plain
  special _ _ := []
  strip _ := sample_strip

/-- `install -s -m 755 a b /dest` -/
def sampleLine : Line where
  items := [.option ["-s".toList], .option ["-m".toList, "755".toList], .operand "a".toList,
    .operand "b".toList,
    .operand "/dest".toList]
  rest := none

theorem single_of {w : Str} (hne : w ≠ []) (hw : (w.all fun c => !(" \t\n".toList.contains c)) = true) :
    sampleSite.Single w := ⟨hne, not_mem_of_all hw, rfl⟩

theorem sampleLine_plain : sampleLine.Plain sampleInstall sampleSite where
  blank := by decide
  command := single_of (by decide) rfl
  stop h := by cases h
  options o ho := by
    have hcases : o = ["-s".toList] ∨ o = ["-m".toList, "755".toList] := by
      simpa [Line.options, sampleLine, Item.option?] using ho
    rcases hcases with rfl | rfl
    · exact ⟨.flag (single_of (by decide) rfl) rfl (by decide) (by decide) (by decide) (by decide)
        (by decide),
        by decide⟩
    · exact ⟨.argument (single_of (by decide) rfl) (single_of (by decide) rfl) (by decide) (by decide),
        by decide⟩
  names s hs := by
    have hcases : "a".toList = s ∨ "b".toList = s ∨ "/dest".toList = s := by
      simpa [Line.names, sampleLine, Item.name?] using hs
    rcases hcases with rfl | rfl | rfl
    · exact ⟨by decide, by decide⟩
    · exact ⟨by decide, by decide⟩
    · exact ⟨by decide, by decide⟩
  target := by decide +kernel

theorem sampleLine_fits : sampleLine.Fits sampleInstall sampleSite := by
  have hfree : ∀ s ∈ sampleLine.sources, sampleSite.free (sampleSite.path sampleLine.destination) s =
    true := by
    decide +kernel
  exact .inr fun _ => hfree

/-- `install -Dm 755 a bin/a`, where the wrapper does not know that `755` belongs to the option. -/
theorem sample_leading :
    Leading sampleInstall sampleSite [["-Dm".toList]] ["755".toList, "a".toList] "bin/a".toList where
  blank := by decide
  command := single_of (by decide) rfl
  passed o ho := by
    obtain rfl := List.mem_singleton.mp ho
    exact ⟨.flag rfl (by decide) (by decide), fun w hw =>
      List.mem_singleton.mp hw ▸ single_of (by decide) rfl⟩
  kept := by decide
  sources := by
    refine ⟨by decide, fun s hs => ?_⟩
    have hcases : s = "755".toList ∨ s = "a".toList := by simpa using hs
    rcases hcases with rfl | rfl
    · exact ⟨by decide, by decide⟩
    · exact ⟨by decide, by decide⟩
  destination := ⟨⟨by decide, by decide⟩, by decide⟩
  target := by decide +kernel
  reads := ⟨⟨[["-Dm".toList, "755".toList]], [], ["a".toList, "bin/a".toList]⟩, rfl, rfl, by decide, by
    rw [if_neg (by decide)]
    exact .inr (by decide)⟩

theorem wrapper_faithful_sample :
    sampleInstall.Faithful sampleSite sampleLine.words ∧
      sampleInstall.Faithful sampleSite ["-Dm".toList, "755".toList, "a".toList, "bin/a".toList] :=
  ⟨((wrapper_faithful_iff sampleInstall sampleSite).1 sampleLine sampleLine_plain).mpr sampleLine_fits,
    (wrapper_faithful_iff sampleInstall sampleSite).2 _ _ _ sample_leading⟩

/-- With `-t` in front the last operand becomes the destination. -/
theorem wrapper_faithful_target :
    sampleInstall.wanted sampleSite ["-t".toList, "/dest".toList, "a".toList, "b".toList] =
      [⟨[], some (.file ["build".toList, "a".toList]), ["dest".toList, "a".toList]⟩,
        ⟨[], some (.file ["build".toList, "b".toList]), ["dest".toList, "b".toList]⟩] ∧
    wrapperMain sampleSite "install".toList ["-t".toList, "/dest".toList, "a".toList, "b".toList] =
      [["install".toList, "/dest".toList, "a".toList, "/build/b".toList]] ∧
    ¬sampleInstall.Faithful sampleSite ["-t".toList, "/dest".toList, "a".toList, "b".toList] := by
  have hwanted : sampleInstall.wanted sampleSite ["-t".toList, "/dest".toList, "a".toList, "b".toList] =
      [⟨[], some (.file ["build".toList, "a".toList]), ["dest".toList, "a".toList]⟩,
        ⟨[], some (.file ["build".toList, "b".toList]), ["dest".toList, "b".toList]⟩] := rfl
  have hdone : (wrapperMain sampleSite sampleInstall.name
      ["-t".toList, "/dest".toList, "a".toList, "b".toList]).flatMap (sampleInstall.run sampleSite) =
      [] := rfl
  refine ⟨hwanted, by decide +kernel, fun hsame => ?_⟩
  have hmem := (hsame _).mp (hwanted ▸ List.mem_cons_self)
  rw [hdone] at hmem
  exact List.not_mem_nil hmem

end T2SDE.Install
