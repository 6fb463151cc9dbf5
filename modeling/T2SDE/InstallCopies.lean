import T2SDE.InstallLine

namespace T2SDE.Install

open Text PathName ShellFields

/-- The name of the source in the directory is no directory, or it is not asked for. -/
def Site.free (site : Site) (d : List Str) (s : Str) : Bool :=
  site.unnamed s || !site.isDir (d ++ site.base s)

section Effects

variable {tool : Tool} {site : Site} {os : List (List Str)} {d : List Str}

theorem named_eq {ops : List Str} (hops : ∀ s ∈ ops, s ≠ []) : named ops = ops :=
  List.filter_eq_self.mpr fun s hs => by simpa using hops s hs

theorem path_source {s o : Str} (h : tool.source site os s = tool.source site os o) :
    site.path s = site.path o := by
  unfold Tool.source at h
  split at h
  · rw [Source.text.inj h]
  · exact Source.file.inj h

theorem base_source {s o : Str} (h : tool.source site os s = tool.source site os o) :
    site.base s = site.base o := by
  rw [Site.base, Site.base, path_source h]

theorem copyInto_congr {s o : Str} (h : tool.source site os s = tool.source site os o) :
    tool.copyInto site os d s = tool.copyInto site os d o := by
  rw [Tool.copyInto, Tool.copyInto, h, base_source h]

theorem source_copyInto {d' : List Str} {s o : Str}
    (h : tool.copyInto site os d s = tool.copyInto site os d' o) :
    tool.source site os s = tool.source site os o ∧ d = d' := by
  have hsource : tool.source site os s = tool.source site os o := Option.some.inj (congrArg Effect.source h)
  have htarget : d ++ site.base s = d' ++ site.base o := congrArg Effect.target h
  rw [base_source hsource] at htarget
  exact ⟨hsource, List.append_cancel_right htarget⟩

/-- A link to a text is another one if the text is made absolute. -/
theorem source_absolute (tool : Tool) (site : Site) (os : List (List Str)) {s : Str} (hne : s ≠ []) :
    tool.source site os (site.absolute s) = tool.source site os s ↔
      s.head? = some '/' ∨ tool.has os .symbolic = false := by
  unfold Tool.source
  cases hsym : tool.has os .symbolic with
  | true =>
    simp only [if_true, Source.text.injEq, Bool.true_eq_false, or_false]
    constructor
    · intro heq
      rw [← heq]
      exact head_absolute site hne
    · exact fun hs => if_pos (.inr hs)
  | false => simp [path_absolute hne]

theorem effects_directories (hother : tool.has os .other = false) (hdirs : tool.has os .directories = true)
    (ts ops : List Str) :
    tool.effects site ⟨os, ts, ops⟩ = if ts = [] then (named ops).map (site.makeDir os) else [] := by
  rw [Tool.effects]
  dsimp only
  rw [hother, hdirs]
  rfl

theorem effects_copies (hother : tool.has os .other = false) (hdirs : tool.has os .directories = false)
    (ops : List Str) : tool.effects site ⟨os, [], ops⟩ = tool.copies site os ops := by
  rw [Tool.effects]
  dsimp only
  rw [hother, hdirs]
  rfl

theorem effects_target (hother : tool.has os .other = false) (hdirs : tool.has os .directories = false)
    (dir : Str) (ops : List Str) :
    tool.effects site ⟨os, [dir], ops⟩ =
      if site.dir dir then (named ops).map (tool.copyInto site os (site.path dir)) else [] := by
  rw [Tool.effects]
  dsimp only
  rw [hother, hdirs]
  rfl

theorem effects_targets (hother : tool.has os .other = false) (hdirs : tool.has os .directories = false)
    {ts : List Str} (hts : 2 ≤ ts.length) (ops : List Str) : tool.effects site ⟨os, ts, ops⟩ = [] := by
  obtain ⟨a, b, ts, rfl⟩ : ∃ a b ts', ts = a :: b :: ts' := by
    rcases ts with _ | ⟨a, _ | ⟨b, ts⟩⟩
    · simp at hts
    · simp at hts
    · exact ⟨a, b, ts, rfl⟩
  rw [Tool.effects]
  dsimp only
  rw [hother, hdirs]
  rfl

theorem copies_single {s : Str} (hs : s ≠ []) :
    tool.copies site os [s] =
      if tool.name = "ln".toList then [tool.copyInto site os (components site.pwd) s] else [] := by
  have hnamed : named [s] = [s] := named_eq fun x hx => List.mem_singleton.mp hx ▸ hs
  rw [Tool.copies, hnamed, List.dropLast_singleton, if_pos rfl]
  rfl

/-- There is nothing to do for an empty name. -/
theorem effects_nil (hother : tool.has os .other = false) : tool.effects site ⟨os, [], [[]]⟩ = [] := by
  cases hdirs : tool.has os .directories with
  | true =>
    rw [effects_directories hother hdirs]
    rfl
  | false =>
    rw [effects_copies hother hdirs, Tool.copies, List.dropLast_singleton, if_pos rfl]
    exact ite_self _

theorem copies_append (tool : Tool) (site : Site) (os : List (List Str)) {ss : List Str} (hne : ss ≠ [])
    (hss : ∀ s ∈ ss, s ≠ []) {dest : Str} (hdest : dest ≠ []) :
    tool.copies site os (ss ++ [dest]) =
      if site.dir dest then ss.map (tool.copyInto site os (site.path dest))
      else if ss.length = 1 then ss.map (tool.copyTo site os (site.path dest)) else [] := by
  have hlast : (ss ++ [dest]).getLastD [] = dest := by simp
  rw [Tool.copies, List.dropLast_concat, hlast, if_neg hne, named_eq hss]
  split
  · rfl
  · rcases ss with _ | ⟨s, _ | ⟨t, ss⟩⟩
    · exact absurd rfl hne
    · have hs := hss s List.mem_cons_self
      simp [hs, hdest]
    · simp

/-- What the command for one source does in a directory. -/
theorem copies_thisdest {dest s : Str} (hdest : dest.head? = some '/') (hdir : site.dir dest = true)
    (hs : s ≠ []) :
    tool.copies site os [s, site.thisdest dest s] =
      [tool.copyInto site os (if site.free (site.path dest) s then site.path dest
        else site.path dest ++ site.base s) s] := by
  have hhead := head_thisdest site hdest s
  have hne : site.thisdest dest s ≠ [] := fun h => by simp [h] at hhead
  have hpath := path_thisdest site hdest hs
  have hisdir : site.isDir (site.path dest) = true := (Bool.and_eq_true_iff.mp hdir).2
  have hthis : site.dir (site.thisdest dest s) = site.isDir (site.path (site.thisdest dest s)) := by
    simp [Site.dir, hne]
  have hcopies := copies_append tool site os (List.cons_ne_nil s [])
    (fun x hx => List.mem_singleton.mp hx ▸ hs) hne
  rw [List.singleton_append] at hcopies
  rw [hcopies, hthis, hpath]
  by_cases hunnamed : site.unnamed s = true
  · have hfree : site.free (site.path dest) s = true := by simp [Site.free, hunnamed]
    rw [if_pos hunnamed, List.append_nil, if_pos hisdir, if_pos hfree]
    rfl
  · rw [if_neg hunnamed]
    have hunnamed' : site.unnamed s = false := by simpa using hunnamed
    by_cases hbase : site.isDir (site.path dest ++ site.base s) = true
    · have hfree : site.free (site.path dest) s = false := by simp [Site.free, hunnamed', hbase]
      rw [if_pos hbase, hfree]
      rfl
    · have hfree : site.free (site.path dest) s = true := by simp [Site.free, hbase]
      rw [if_neg hbase, if_pos hfree]
      rfl

/-- Copying sources one by one is copying all of them if no name is a directory. -/
theorem copies_iff {ss ops : List Str} (hss : ∀ s ∈ ss, s ≠ []) :
    (∀ e, e ∈ ops.map (tool.copyInto site os d) ↔
        e ∈ ss.map fun s => tool.copyInto site os (if site.free d s then d else d ++ site.base s) s) ↔
      (∀ x, x ∈ ops.map (tool.source site os) ↔ x ∈ ss.map (tool.source site os)) ∧
        ∀ s ∈ ss, site.free d s = true := by
  constructor
  · intro h
    have hto : ∀ o ∈ ops, ∃ s ∈ ss, tool.source site os s = tool.source site os o := by
      intro o ho
      obtain ⟨s, hs, heq⟩ := List.mem_map.mp ((h _).mp (List.mem_map_of_mem ho))
      exact ⟨s, hs, (source_copyInto heq).1⟩
    have hfrom : ∀ s ∈ ss, ∃ o ∈ ops, tool.source site os o = tool.source site os s ∧
        d = if site.free d s then d else d ++ site.base s := by
      intro s hs
      obtain ⟨o, ho, heq⟩ := List.mem_map.mp ((h _).mpr (List.mem_map_of_mem hs))
      exact ⟨o, ho, source_copyInto heq⟩
    refine ⟨fun x => ⟨fun hx => ?_, fun hx => ?_⟩, fun s hs => ?_⟩
    · obtain ⟨o, ho, rfl⟩ := List.mem_map.mp hx
      obtain ⟨s, hs, heq⟩ := hto o ho
      exact List.mem_map.mpr ⟨s, hs, heq⟩
    · obtain ⟨s, hs, rfl⟩ := List.mem_map.mp hx
      obtain ⟨o, ho, heq, _⟩ := hfrom s hs
      exact List.mem_map.mpr ⟨o, ho, heq⟩
    · obtain ⟨_, _, _, hd⟩ := hfrom s hs
      by_contra hfree
      -- the source would end up one level below its place
      have hfalse : site.free d s = false := by simpa using hfree
      have hunnamed : site.unnamed s = false := (Bool.or_eq_false_iff.mp hfalse).1
      rw [if_neg hfree] at hd
      exact base_ne_nil (hss s hs) hunnamed (List.self_eq_append_right.mp hd)
  · rintro ⟨hsources, hfree⟩ e
    have hmap : ss.map (fun s => tool.copyInto site os (if site.free d s then d else d ++ site.base s) s) =
        ss.map (tool.copyInto site os d) := List.map_congr_left fun s hs => by rw [if_pos (hfree s hs)]
    rw [hmap]
    constructor
    · intro he
      obtain ⟨o, ho, rfl⟩ := List.mem_map.mp he
      obtain ⟨s, hs, heq⟩ := List.mem_map.mp ((hsources _).mp (List.mem_map_of_mem ho))
      exact List.mem_map.mpr ⟨s, hs, copyInto_congr heq⟩
    · intro he
      obtain ⟨s, hs, rfl⟩ := List.mem_map.mp he
      obtain ⟨o, ho, heq⟩ := List.mem_map.mp ((hsources _).mpr (List.mem_map_of_mem hs))
      exact List.mem_map.mpr ⟨o, ho, copyInto_congr heq⟩

end Effects

namespace Line

def sources (line : Line) : List Str := line.names.dropLast

def destination (line : Line) : Str := line.names.getLastD []

/-- The directories of `install -d`: nothing but them is made, and the last one is made where it is
there already. -/
def FitsDirectories (site : Site) (line : Line) : Prop :=
  line.targets = [] ∧
    (line.sources = [] ∨ site.dir line.destination = false ∨
      (∀ s ∈ line.sources, site.unnamed s = true ∨
        site.path line.destination ++ site.base s ∈ line.names.map site.path) ∧
      ∃ s ∈ line.sources, site.unnamed s = true)

/-- The destination is the last operand for both. -/
def FitsLast (tool : Tool) (site : Site) (line : Line) : Prop :=
  if line.sources = [] then
    tool.name ≠ "ln".toList ∨ line.destination.head? = some '/' ∨ tool.has line.options .symbolic = false
  else site.dir line.destination = true → ∀ s ∈ line.sources, site.free (site.path line.destination) s = true

/-- The last name is the argument of `-t`, or the same directory. -/
def FitsTarget (tool : Tool) (site : Site) (line : Line) (d : Str) : Prop :=
  site.path line.destination = site.path d ∧
    (∀ x, x ∈ line.operands.map (tool.source site line.options) ↔
      x ∈ line.sources.map (tool.source site line.options)) ∧
    ∀ s ∈ line.sources, site.free (site.path d) s = true

/-- The command fails with these names: nothing but a destination, or several sources for what is no
directory. -/
def Idle (tool : Tool) (site : Site) (line : Line) : Prop :=
  if line.sources = [] then tool.name ≠ "ln".toList
  else site.dir line.destination = false ∧ 2 ≤ line.sources.length

/-- When the commands of the wrapper do what the real command would do. -/
def Fits (tool : Tool) (site : Site) (line : Line) : Prop :=
  line.names = [] ∨
    if tool.has line.options .directories then line.FitsDirectories site
    else
      match line.targets with
      | [] => line.FitsLast tool site
      | [d] =>
        if site.dir d = true ∧ line.operands ≠ [] then line.FitsTarget tool site d else line.Idle tool site
      | _ => line.Idle tool site

end Line

section Done

variable {tool : Tool} {site : Site} {line : Line}

theorem names_split (hne : line.names ≠ []) : line.names = line.sources ++ [line.destination] := by
  rw [Line.sources, Line.destination, List.getLastD_eq_getLast?, List.getLast?_eq_some_getLast hne]
  exact (List.dropLast_append_getLast hne).symm

theorem names_perm (line : Line) : line.names.Perm (line.targets ++ line.operands) := by
  have hitems : ∀ items : List Item, (items.filterMap Item.name?).Perm
      (items.filterMap Item.target? ++ items.filterMap Item.operand?) := by
    intro items
    induction items with
    | nil => exact .refl _
    | cons i items ih =>
      cases i with
      | option _ => exact ih
      | target d => exact ih.cons d
      | operand s => exact (ih.cons s).trans List.perm_middle.symm
  rw [Line.names, Line.targets, Line.operands, ← List.append_assoc]
  exact (hitems line.items).append_right _

theorem names_eq (h : line.targets = []) : line.names = line.operands := by
  have hitems : ∀ items : List Item, items.filterMap Item.target? = [] →
      items.filterMap Item.name? = items.filterMap Item.operand? := by
    intro items
    induction items with
    | nil => exact fun _ => rfl
    | cons i items ih =>
      intro hnone
      cases i with
      | option _ => exact ih hnone
      | target d => cases hnone
      | operand s => exact congrArg (s :: ·) (ih hnone)
  rw [Line.names, Line.operands, hitems _ h]

theorem destination_ne_nil (h : line.Plain tool site) (hne : line.names ≠ []) : line.destination ≠ [] := by
  have hmem : line.destination ∈ line.names := by
    rw [names_split hne]
    exact List.mem_append_right _ (List.mem_singleton_self _)
  exact (h.names _ hmem).1

theorem source_name (h : line.Plain tool site) : ∀ s ∈ line.sources, IsName s := fun s hs =>
  h.names s (List.dropLast_subset _ hs)

/-- What the commands of the wrapper do. -/
def Line.done (line : Line) (tool : Tool) (site : Site) : List Effect :=
  if line.names = [] then []
  else if line.sources = [] then
    tool.effects site ⟨line.given tool, [], [site.absolute line.destination]⟩
  else if site.dir line.destination then
    line.sources.flatMap fun s =>
      tool.effects site ⟨line.given tool, [], [s, site.thisdest (site.absolute line.destination) s]⟩
  else tool.effects site ⟨line.given tool, [], line.sources ++ [site.absolute line.destination]⟩

theorem wrapper_line (h : line.Plain tool site) :
    (wrapperMain site tool.name line.words).flatMap (tool.run site) = line.done tool site := by
  have htarget : ¬∃ a ∈ line.words, "--target-directory".toList <:+: a :=
    fun ⟨a, ha, hin⟩ => h.target a ha hin
  have hrun : ∀ ops : List Str, (∀ s ∈ ops, s.head? ≠ some '-') →
      tool.run site (tool.name :: line.passed tool.name ++ ops) =
        tool.effects site ⟨line.given tool, [], ops⟩ :=
    fun ops hops => run_passed h hops
  rw [wrapperMain, if_neg htarget, scan_line h]
  dsimp only
  rw [splitGlob_newcommand h, ← Line.sources, ← Line.destination, Line.done]
  by_cases hne : line.names = []
  · have hdest : line.destination = [] := by
      rw [Line.destination, hne]
      rfl
    have habs : site.absolute [] = [] := if_pos (.inl rfl)
    rw [hdest, habs, if_pos (.inl rfl), if_pos hne, List.flatMap_singleton,
      hrun [[]] fun s hs => by simp [List.mem_singleton.mp hs], effects_nil (given_other h)]
  · have hdest := destination_ne_nil h hne
    have hhead := head_absolute site hdest
    have hlast : (site.absolute line.destination).head? ≠ some '-' := by simp [hhead]
    by_cases hsources : line.sources = []
    · rw [if_pos (.inr hsources), if_neg hne, if_pos hsources, List.flatMap_singleton,
        hrun _ fun s hs => List.mem_singleton.mp hs ▸ hlast]
    · rw [if_neg (not_or.mpr ⟨absolute_ne_nil site hdest, hsources⟩), if_neg hne, if_neg hsources,
        dir_absolute hdest]
      split
      · rw [List.flatMap_assoc]
        refine List.flatMap_congr fun s hs => ?_
        have hthis := head_thisdest site hhead s
        have hthisne : site.thisdest (site.absolute line.destination) s ≠ [] := fun hnil => by
          simp [hnil] at hthis
        rw [if_neg hthisne, List.flatMap_singleton, hrun _ fun x hx => ?_]
        rcases List.mem_cons.mp hx with rfl | hx
        · exact (source_name h x hs).2
        · rw [List.mem_singleton.mp hx, hthis]
          decide
      · rw [List.flatMap_singleton, List.append_assoc, hrun _ fun x hx => ?_]
        rcases List.mem_append.mp hx with hx | hx
        · exact (source_name h x hx).2
        · exact List.mem_singleton.mp hx ▸ hlast

end Done

section Faithful

variable {tool : Tool} {site : Site} {line : Line}

theorem source_given (s : Str) : tool.source site (line.given tool) s = tool.source site line.options s :=
  source_kept line.options s

theorem source_ne_nil (h : line.Plain tool site) : ∀ s ∈ line.sources, s ≠ [] :=
  fun s hs => (source_name h s hs).1

/-- Into a directory the sources are copied one by one. -/
theorem done_into (h : line.Plain tool site) (hdirs : tool.has (line.given tool) .directories = false)
    (hsources : line.sources ≠ []) (hdir : site.dir line.destination = true) :
    line.done tool site = line.sources.map fun s =>
      tool.copyInto site (line.given tool) (if site.free (site.path line.destination) s then
        site.path line.destination else site.path line.destination ++ site.base s) s := by
  have hne : line.names ≠ [] := fun hnil => hsources (by rw [Line.sources, hnil]; rfl)
  have hdest := destination_ne_nil h hne
  rw [Line.done, if_neg hne, if_neg hsources, if_pos hdir, List.map_eq_flatMap]
  refine List.flatMap_congr fun s hs => ?_
  rw [effects_copies (given_other h) hdirs, copies_thisdest (head_absolute site hdest)
    (by rwa [dir_absolute hdest])
    (source_ne_nil h s hs), path_absolute hdest]

/-- Otherwise they are copied together. -/
theorem done_together (h : line.Plain tool site) (hdirs : tool.has (line.given tool) .directories = false)
    (hsources : line.sources ≠ []) (hdir : site.dir line.destination = false) :
    line.done tool site = if line.sources.length = 1 then
      line.sources.map (tool.copyTo site (line.given tool) (site.path line.destination)) else [] := by
  have hne : line.names ≠ [] := fun hnil => hsources (by rw [Line.sources, hnil]; rfl)
  have hdest := destination_ne_nil h hne
  rw [Line.done, if_neg hne, if_neg hsources, hdir, if_neg Bool.false_ne_true,
    effects_copies (given_other h) hdirs, copies_append _ _ _ hsources (source_ne_nil h)
    (absolute_ne_nil site hdest),
    dir_absolute hdest, hdir, if_neg Bool.false_ne_true, path_absolute hdest]

theorem done_single (h : line.Plain tool site) (hdirs : tool.has (line.given tool) .directories = false)
    (hne : line.names ≠ []) (hsources : line.sources = []) :
    line.done tool site = if tool.name = "ln".toList then
      [tool.copyInto site (line.given tool) (components site.pwd) (site.absolute line.destination)]
      else [] := by
  rw [Line.done, if_neg hne, if_pos hsources, effects_copies (given_other h) hdirs,
    copies_single (absolute_ne_nil site (destination_ne_nil h hne))]

theorem done_nil_iff (h : line.Plain tool site) (hdirs : tool.has (line.given tool) .directories = false)
    (hne : line.names ≠ []) : line.done tool site = [] ↔ line.Idle tool site := by
  unfold Line.Idle
  by_cases hsources : line.sources = []
  · rw [if_pos hsources, done_single h hdirs hne hsources]
    split
    next hln => exact iff_of_false (List.cons_ne_nil _ _) (not_not_intro hln)
    next hln => exact iff_of_true rfl hln
  · rw [if_neg hsources]
    have hpos := List.length_pos_iff.mpr hsources
    cases hdir : site.dir line.destination with
    | true =>
      rw [done_into h hdirs hsources hdir, List.map_eq_nil_iff]
      simp [hsources]
    | false =>
      rw [done_together h hdirs hsources hdir]
      split
      · rw [List.map_eq_nil_iff]
        simp only [hsources, true_and, false_iff]
        omega
      · simp only [true_and, true_iff]
        omega

/-- Without `-t`. -/
theorem last_iff (h : line.Plain tool site) (hdirs : tool.has (line.given tool) .directories = false)
    (hne : line.names ≠ []) (htargets : line.targets = []) :
    (∀ e, e ∈ tool.effects site ⟨line.given tool, line.targets, line.operands⟩ ↔ e ∈ line.done tool site) ↔
      line.FitsLast tool site := by
  have hdest := destination_ne_nil h hne
  unfold Line.FitsLast
  rw [htargets, ← names_eq htargets, names_split hne, effects_copies (given_other h) hdirs]
  by_cases hsources : line.sources = []
  · rw [if_pos hsources, done_single h hdirs hne hsources, hsources, List.nil_append, copies_single hdest]
    split
    next hln =>
      have hsource := source_absolute tool site (line.given tool) hdest
      rw [Line.given, has_kept (by decide), ← Line.given] at hsource
      rw [← hsource]
      constructor
      · intro hsame
        have heq := List.mem_singleton.mp ((hsame _).mpr (List.mem_singleton_self _))
        exact .inr (source_copyInto heq).1
      · intro hfits
        rw [copyInto_congr (hfits.resolve_left (not_not_intro hln))]
        exact fun _ => Iff.rfl
    next hln => exact iff_of_true (fun _ => Iff.rfl) (.inl hln)
  · rw [if_neg hsources, copies_append _ _ _ hsources (source_ne_nil h) hdest]
    cases hdir : site.dir line.destination with
    | true =>
      rw [done_into h hdirs hsources hdir, if_pos rfl, copies_iff (source_ne_nil h)]
      simp
    | false =>
      rw [done_together h hdirs hsources hdir]
      simp

/-- `-t` with a directory and something to copy. -/
theorem target_iff (h : line.Plain tool site) (hdirs : tool.has (line.given tool) .directories = false)
    {d : Str} (htargets : line.targets = [d]) (hdir : site.dir d = true) (hops : line.operands ≠ []) :
    (∀ e, e ∈ tool.effects site ⟨line.given tool, line.targets, line.operands⟩ ↔ e ∈ line.done tool site) ↔
      line.FitsTarget tool site d := by
  have hperm := names_perm line
  rw [htargets] at hperm
  have hne : line.names ≠ [] := fun hnil => by simp [hnil] at hperm
  have hdest := destination_ne_nil h hne
  have hsplit := names_split hne
  have hopsne : ∀ s ∈ line.operands, s ≠ [] := fun s hs =>
    (h.names s (hperm.mem_iff.mpr (List.mem_cons_of_mem d hs))).1
  have hsources : line.sources ≠ [] := by
    intro hnil
    have hlen := hperm.length_eq
    have hpos := List.length_pos_iff.mpr hops
    rw [hsplit, hnil, List.nil_append, List.length_append, List.length_singleton,
      List.length_singleton] at hlen
    omega
  -- the argument of -t is one of the sources if it is not the destination
  have hsource : line.destination ≠ d → d ∈ line.sources := by
    intro hother
    have hmem : d ∈ line.names := hperm.mem_iff.mpr List.mem_cons_self
    rw [hsplit] at hmem
    rcases List.mem_append.mp hmem with hmem | hmem
    · exact hmem
    · exact absurd (List.mem_singleton.mp hmem).symm hother
  have hmap (os : List (List Str)) (ss : List Str) (hos : os = line.given tool) :
      ss.map (tool.source site os) = ss.map (tool.source site line.options) := by
    rw [hos]
    exact List.map_congr_left fun s _ => source_given s
  rw [htargets, effects_target (given_other h) hdirs, if_pos hdir, named_eq hopsne]
  unfold Line.FitsTarget
  by_cases hpath : site.path line.destination = site.path d
  · have hdir' : site.dir line.destination = true := by
      rw [Site.dir, hpath, (Bool.and_eq_true_iff.mp hdir).2]
      simpa using hdest
    rw [done_into h hdirs hsources hdir', hpath, copies_iff (source_ne_nil h), hmap _ _ rfl, hmap _ _ rfl]
    simp
  · refine iff_of_false (fun hsame => ?_) fun hfits => hpath hfits.1
    have hd := hsource fun heq => hpath (by rw [heq])
    cases hdir' : site.dir line.destination with
    | true =>
      have hfree : site.free (site.path line.destination) d = true := by simp [Site.free, Site.unnamed, hdir]
      rw [done_into h hdirs hsources hdir'] at hsame
      obtain ⟨o, _, heq⟩ := List.mem_map.mp ((hsame _).mpr (List.mem_map_of_mem hd))
      rw [if_pos hfree] at heq
      exact hpath (source_copyInto heq).2.symm
    | false =>
      rw [done_together h hdirs hsources hdir'] at hsame
      obtain ⟨o, ho⟩ := List.exists_mem_of_ne_nil _ hops
      split at hsame
      next hlen =>
        obtain ⟨x, hx⟩ := List.length_eq_one_iff.mp hlen
        rw [hx] at hd hsame
        obtain rfl := List.mem_singleton.mp hd
        rw [hsplit, hx] at hperm
        have hmem := ((List.perm_append_left_iff [d]).mp hperm).mem_iff.mp (List.mem_singleton_self _)
        have heq := List.mem_singleton.mp ((hsame _).mp (List.mem_map_of_mem hmem))
        exact hpath (path_source (Option.some.inj (congrArg Effect.source heq)))
      next => exact List.not_mem_nil ((hsame _).mp (List.mem_map_of_mem ho))

/-- The directories that the commands of the wrapper make. -/
def Line.made (line : Line) (site : Site) : List (List Str) :=
  if line.sources = [] ∨ site.dir line.destination = false then line.names.map site.path
  else line.sources.flatMap fun s =>
    [site.path s, site.path line.destination ++ if site.unnamed s then [] else site.base s]

theorem made_done (h : line.Plain tool site) (hdirs : tool.has (line.given tool) .directories = true)
    (hne : line.names ≠ []) :
    line.done tool site = (line.made site).map (Effect.mk (line.given tool) none) := by
  have hdest := destination_ne_nil h hne
  have habs := absolute_ne_nil site hdest
  have hmake : site.makeDir (line.given tool) (site.absolute line.destination) =
      site.makeDir (line.given tool) line.destination := by
    rw [Site.makeDir, Site.makeDir, path_absolute hdest]
  have htogether : tool.effects site ⟨line.given tool, [], line.sources ++ [site.absolute line.destination]⟩ =
      (line.names.map site.path).map (Effect.mk (line.given tool) none) := by
    have hnamed : named (line.sources ++ [site.absolute line.destination]) =
        line.sources ++ [site.absolute line.destination] := by
      refine named_eq fun s hs => ?_
      rcases List.mem_append.mp hs with hs | hs
      · exact source_ne_nil h s hs
      · exact List.mem_singleton.mp hs ▸ habs
    rw [effects_directories (given_other h) hdirs, if_pos rfl, hnamed, names_split hne, List.map_map,
      List.map_append, List.map_append, List.map_singleton, hmake]
    rfl
  rw [Line.done, Line.made, if_neg hne]
  by_cases hsources : line.sources = []
  · rw [hsources, List.nil_append] at htogether
    rw [if_pos hsources, if_pos (.inl hsources), htogether]
  · rw [if_neg hsources]
    cases hdir : site.dir line.destination with
    | false => rw [if_neg Bool.false_ne_true, if_pos (.inr rfl), htogether]
    | true =>
      rw [if_pos rfl, if_neg (by simp [hsources]), List.map_flatMap]
      refine List.flatMap_congr fun s hs => ?_
      have hthis := head_thisdest site (head_absolute site hdest) s
      have hnamed : named [s, site.thisdest (site.absolute line.destination) s] =
          [s, site.thisdest (site.absolute line.destination) s] := by
        refine named_eq fun x hx => ?_
        rcases List.mem_cons.mp hx with rfl | hx
        · exact source_ne_nil h x hs
        · rw [List.mem_singleton.mp hx]
          exact fun hnil => by simp [hnil] at hthis
      rw [effects_directories (given_other h) hdirs, if_pos rfl, hnamed, List.map_cons, List.map_singleton,
        Site.makeDir, Site.makeDir, path_thisdest site (head_absolute site hdest) (source_ne_nil h s hs),
        path_absolute hdest]
      rfl

/-- What is made in a directory that is there is asked for if the names in it are. -/
theorem made_iff (h : line.Plain tool site) (hsources : line.sources ≠ [])
    (hdir : site.dir line.destination = true) :
    (∀ p, p ∈ line.names.map site.path ↔ p ∈ line.made site) ↔
      (∀ s ∈ line.sources, site.unnamed s = true ∨
        site.path line.destination ++ site.base s ∈ line.names.map site.path) ∧
      ∃ s ∈ line.sources, site.unnamed s = true := by
  have hne : line.names ≠ [] := fun hnil => hsources (by rw [Line.sources, hnil]; rfl)
  have hmade : line.made site = line.sources.flatMap fun s =>
      [site.path s, site.path line.destination ++ if site.unnamed s then [] else site.base s] :=
    if_neg (by simp [hsources, hdir])
  have hdest : site.path line.destination ∈ line.names.map site.path := by
    rw [names_split hne]
    simp
  have hsource : ∀ s ∈ line.sources, site.path s ∈ line.names.map site.path := fun s hs =>
    List.mem_map_of_mem (List.dropLast_subset _ hs)
  rw [hmade]
  constructor
  · intro hsame
    refine ⟨fun s hs => ?_, ?_⟩
    · by_cases hunnamed : site.unnamed s = true
      · exact .inl hunnamed
      · have hmem := (hsame (site.path line.destination ++ site.base s)).mpr
          (List.mem_flatMap.mpr ⟨s, hs, by simp [hunnamed]⟩)
        exact .inr hmem
    · obtain ⟨s, hs, hmem⟩ := List.mem_flatMap.mp ((hsame _).mp hdest)
      refine ⟨s, hs, ?_⟩
      rcases List.mem_cons.mp hmem with hpath | hmem
      · -- the destination is among the sources again
        have hisdir : site.isDir (site.path s) = true := by
          rw [← hpath]
          exact (Bool.and_eq_true_iff.mp hdir).2
        simp [Site.unnamed, Site.dir, hisdir, source_ne_nil h s hs]
      · have hpath := List.mem_singleton.mp hmem
        by_contra hunnamed
        rw [if_neg hunnamed] at hpath
        exact base_ne_nil (source_ne_nil h s hs) (by simpa using hunnamed)
          (List.self_eq_append_right.mp hpath)
  · rintro ⟨hasked, t, ht, hunnamed⟩ p
    constructor
    · intro hp
      rw [names_split hne, List.map_append, List.mem_append] at hp
      rcases hp with hp | hp
      · obtain ⟨s, hs, rfl⟩ := List.mem_map.mp hp
        exact List.mem_flatMap.mpr ⟨s, hs, List.mem_cons_self⟩
      · rw [List.map_singleton, List.mem_singleton] at hp
        exact List.mem_flatMap.mpr ⟨t, ht, by simp [hunnamed, hp]⟩
    · intro hp
      obtain ⟨s, hs, hp⟩ := List.mem_flatMap.mp hp
      rcases List.mem_cons.mp hp with rfl | hp
      · exact hsource s hs
      · rw [List.mem_singleton.mp hp]
        by_cases hunnamed : site.unnamed s = true
        · rwa [if_pos hunnamed, List.append_nil]
        · rw [if_neg hunnamed]
          exact (hasked s hs).resolve_left hunnamed

theorem made_some (site : Site) (hne : line.names ≠ []) : ∃ p, p ∈ line.made site := by
  unfold Line.made
  split
  · obtain ⟨s, hs⟩ := List.exists_mem_of_ne_nil _ hne
    exact ⟨site.path s, List.mem_map_of_mem hs⟩
  next hnot =>
    obtain ⟨s, hs⟩ := List.exists_mem_of_ne_nil _ (not_or.mp hnot).1
    exact ⟨site.path s, List.mem_flatMap.mpr ⟨s, hs, List.mem_cons_self⟩⟩

/-- `install -d` -/
theorem directories_iff (h : line.Plain tool site) (hdirs : tool.has (line.given tool) .directories = true)
    (hne : line.names ≠ []) :
    (∀ e, e ∈ tool.effects site ⟨line.given tool, line.targets, line.operands⟩ ↔ e ∈ line.done tool site) ↔
      line.FitsDirectories site := by
  have hinj : Function.Injective (Effect.mk (line.given tool) none) :=
    fun _ _ heq => congrArg Effect.target heq
  unfold Line.FitsDirectories
  rw [made_done h hdirs hne, effects_directories (given_other h) hdirs]
  by_cases htargets : line.targets = []
  · have hnamed : named line.operands = line.operands := named_eq fun s hs =>
      (h.names s (by rwa [names_eq htargets])).1
    have hmap : line.operands.map (site.makeDir (line.given tool)) =
        (line.names.map site.path).map (Effect.mk (line.given tool) none) := by
      rw [names_eq htargets, List.map_map]
      rfl
    rw [if_pos htargets, hnamed, hmap]
    simp only [htargets, true_and]
    by_cases hsources : line.sources = []
    · have hmade : line.made site = line.names.map site.path := if_pos (.inl hsources)
      rw [hmade]
      exact iff_of_true (fun _ => Iff.rfl) (.inl hsources)
    · cases hdir : site.dir line.destination with
      | false =>
        have hmade : line.made site = line.names.map site.path := if_pos (.inr hdir)
        rw [hmade]
        exact iff_of_true (fun _ => Iff.rfl) (.inr (.inl rfl))
      | true =>
        have hpaths := made_iff h hsources hdir
        simp only [hsources, Bool.true_eq_false, false_or]
        rw [← hpaths]
        constructor
        · intro hsame p
          have hp := hsame ⟨line.given tool, none, p⟩
          rwa [List.mem_map_of_injective hinj, List.mem_map_of_injective hinj] at hp
        · intro hsame e
          simp only [List.mem_map, hsame]
  · rw [if_neg htargets]
    refine iff_of_false (fun hsame => ?_) fun hfits => htargets hfits.1
    obtain ⟨p, hp⟩ := made_some site hne
    exact List.not_mem_nil ((hsame _).mpr (List.mem_map_of_mem hp))

theorem effects_empty (hother : tool.has (line.given tool) .other = false) :
    tool.effects site ⟨line.given tool, [], []⟩ = [] := by
  cases hdirs : tool.has (line.given tool) .directories with
  | true =>
    rw [effects_directories hother hdirs]
    rfl
  | false =>
    rw [effects_copies hother hdirs, Tool.copies, List.dropLast_nil, if_pos rfl]
    exact ite_self _

/-- On a command line of plain options the wrapper keeps the meaning of the original exactly where the
last name is the destination of both and no name of a source in it is a directory. -/
theorem plain_iff (h : line.Plain tool site) :
    tool.Faithful site line.words ↔ line.Fits tool site := by
  have hother := given_other h
  have hgiven : tool.has (line.given tool) .directories = tool.has line.options .directories :=
    has_kept (by decide) line.options
  unfold Tool.Faithful Line.Fits
  rw [wanted_line h, wrapper_line h]
  by_cases hne : line.names = []
  · have hnone := names_perm line
    rw [hne, List.nil_perm, List.append_eq_nil_iff] at hnone
    have hdone : line.done tool site = [] := if_pos hne
    rw [hnone.1, hnone.2, hdone, effects_empty hother]
    exact iff_of_true (fun _ => Iff.rfl) (.inl hne)
  · simp only [hne, false_or]
    cases hdirs : tool.has line.options .directories with
    | true =>
      rw [if_pos rfl]
      exact directories_iff h (hgiven.trans hdirs) hne
    | false =>
      rw [if_neg Bool.false_ne_true]
      have hgiven := hgiven.trans hdirs
      have hidle (heffects : tool.effects site ⟨line.given tool, line.targets, line.operands⟩ = []) :
          (∀ e, e ∈ tool.effects site ⟨line.given tool, line.targets, line.operands⟩ ↔
            e ∈ line.done tool site) ↔
            line.Idle tool site := by
        rw [heffects, ← done_nil_iff h hgiven hne, List.eq_nil_iff_forall_not_mem]
        simp
      split
      next htargets => exact last_iff h hgiven hne htargets
      next d htargets =>
        split
        next hd => exact target_iff h hgiven htargets hd.1 hd.2
        next hd =>
          refine hidle ?_
          rw [htargets, effects_target hother hgiven]
          split
          next hdir =>
            have hops : line.operands = [] := by
              by_contra hops
              exact hd ⟨hdir, hops⟩
            rw [hops]
            rfl
          next => rfl
      next hnil hone =>
        refine hidle (effects_targets hother hgiven ?_ _)
        rcases hts : line.targets with _ | ⟨a, _ | ⟨b, ts⟩⟩
        · exact absurd hts hnil
        · exact absurd hts (hone a)
        · simp

end Faithful

end T2SDE.Install
