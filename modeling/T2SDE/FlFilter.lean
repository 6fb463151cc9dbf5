import T2SDE.FlNormal
import T2SDE.Lib.CString

namespace T2SDE.FlWrapper

open Text PathName CString

section Loop

variable {absfile filterdir a b tok seps : Str} {ws : List Str} {fuel : Nat}

/-- Whether `strncmp` finds no difference in the first characters of two strings. -/
def strncmpEq (a b : Str) (n : Nat) : Bool := (strcpy a).take n == (strcpy b).take n

/-- The loop over the directories in which accesses are not logged. -/
def filterLoop (absfile : Str) : Nat → Str → Nat → Bool
  | 0, _, _ => false
  | fuel + 1, filterdir2, save =>
    match strtok ':' filterdir2 save with
    | none => false
    | some t =>
      let tfilterdir := strAt t.mem t.tok
      if strncmpEq absfile tfilterdir tfilterdir.length then true else filterLoop absfile fuel t.mem t.save

/-- Whether `handle_file_access_after` drops an access because of `FLWRAPPER_FILTERDIR`. -/
def isDropped (filterdir absfile : Str) : Bool :=
  filterLoop absfile (filterdir.length + 1) (strcpy filterdir) 0

theorem strncmpEq_iff (hb : nul ∉ b) : strncmpEq a b b.length = true ↔ b <+: a := by
  rw [strncmpEq, beq_iff_eq, strcpy, strcpy, List.take_left]
  constructor
  · intro h
    have hpre : b <+: a ++ [nul] := by
      rw [← h]
      exact List.take_prefix _ _
    rcases List.prefix_concat_iff.mp hpre with heq | hshort
    · exact absurd (by rw [heq]; simp) hb
    · exact hshort
  · rintro ⟨t, rfl⟩
    rw [List.append_assoc, List.take_left]

theorem filterLoop_blank (hs : ∀ c ∈ seps, (c == ':') = true) (pre : Str) :
    filterLoop absfile fuel (pre ++ strcpy seps) pre.length = false := by
  cases fuel with
  | zero => rfl
  | succ fuel => rw [filterLoop, strtok_blank (by decide) hs pre]

theorem filterLoop_token {mem post : Str} {save save' : Nat} (pre : Str) (ht : nul ∉ tok)
    (h : strtok ':' mem save = some ⟨pre.length, pre ++ (tok ++ nul :: post), save'⟩) :
    filterLoop absfile (fuel + 1) mem save =
      (decide (tok <+: absfile) || filterLoop absfile fuel (pre ++ (tok ++ nul :: post)) save') := by
  rw [filterLoop, h]
  simp only [strAt_of pre post ht]
  by_cases hpre : tok <+: absfile
  · rw [if_pos ((strncmpEq_iff ht).mpr hpre)]
    simp [hpre]
  · rw [if_neg fun heq => hpre ((strncmpEq_iff ht).mp heq)]
    simp [hpre]

/-- The loop looks for a listed text that the path begins with. -/
theorem filterLoop_view (hv : TokenView (· == ':') filterdir ws) (hnul : nul ∉ filterdir) (pre : Str)
    (hfuel : ws.length < fuel) :
    filterLoop absfile fuel (pre ++ strcpy filterdir) pre.length = ws.any fun tok =>
    decide (tok <+: absfile) := by
  induction hv generalizing pre fuel with
  | blank hblank => exact filterLoop_blank hblank pre
  | @last seps tok hseps hne htok =>
    obtain ⟨fuel, rfl⟩ := Nat.exists_eq_add_of_le' hfuel
    have ht : nul ∉ tok := fun h => hnul (by simp [h])
    have hd : ':' ∉ tok := fun h => by simpa using htok ':' h
    have hround : filterLoop absfile (fuel + 1 + 1) _ _ = _ :=
      filterLoop_token (pre ++ seps) ht (strtok_last hseps hne hd ht pre)
    have hblank : filterLoop absfile (fuel + 1) (pre ++ seps ++ tok ++ strcpy [])
      (pre ++ seps ++ tok).length = false :=
      filterLoop_blank (by simp) (pre ++ seps ++ tok)
    simp only [strcpy, List.nil_append, List.append_assoc] at hround hblank ⊢
    refine hround.trans ?_
    rw [hblank]
    simp
  | @next seps tok rest d ws hseps hne htok hd _ ih =>
    obtain ⟨fuel, rfl⟩ := Nat.exists_eq_add_of_le' hfuel
    obtain rfl : d = ':' := by simpa using hd
    have ht : nul ∉ tok := fun h => hnul (by simp [h])
    have hcolon : ':' ∉ tok := fun h => by simpa using htok ':' h
    have hround : filterLoop absfile (fuel + (ws.length + 1) + 1) _ _ = _ :=
      filterLoop_token (pre ++ seps) ht (strtok_next (by decide) hseps hne hcolon ht pre rest)
    have hlen : ws.length < fuel + (ws.length + 1) := by omega
    have hrest := ih (fun h => hnul (by simp [h])) (pre ++ seps ++ tok ++ [nul]) hlen
    simp only [List.append_assoc, List.cons_append, List.nil_append] at hround hrest ⊢
    refine hround.trans ?_
    rw [hrest]
    simp

/-- An access is dropped just if its path begins with a listed text. -/
theorem isDropped_iff (hnul : nul ∉ filterdir) :
    isDropped filterdir absfile = true ↔ ∃ tok ∈ tokens (· == ':') filterdir, tok <+: absfile := by
  have hview := tokens_view (· == ':') filterdir
  have hrun : filterLoop absfile _ _ _ = _ := filterLoop_view hview hnul []
    (Nat.lt_succ_of_le (length_tokens_le hview))
  rw [isDropped]
  rw [List.nil_append, List.length_nil] at hrun
  rw [hrun, List.any_eq_true]
  simp only [decide_eq_true_eq]

end Loop

section Paths

variable {ds cs above rest : List Str} {d c e s t : Str}

/-- A directory as it stands in a list, with or without a slash behind it. -/
def IsDirectory (e : Str) : Prop :=
  ∃ ds, (∀ d ∈ ds, IsComponent d) ∧ (e = absolute ds ∨ ds ≠ [] ∧ e = absolute ds ++ ['/'])

/-- The directory lies above the path. -/
def Above (e : Str) (cs : List Str) : Prop := components e <+: cs ∧ components e ≠ cs

/-- A name without a slash behind it that begins another name in the same directory, in which the
path lies. -/
def Beside (e : Str) (cs : List Str) : Prop :=
  ∃ above d c rest, d ≠ [] ∧ e = absolute (above ++ [d]) ∧ cs = above ++ c :: rest ∧ d <+: c ∧ d ≠ c

/-- Components with a slash in front of each. -/
def slashed (cs : List Str) : Str := cs.flatMap ('/' :: ·)

theorem slashed_cons (c : Str) (cs : List Str) : slashed (c :: cs) = '/' :: (c ++ slashed cs) := by
  simp [slashed]

theorem slashed_cases (cs : List Str) : slashed cs = [] ∨ ∃ u, slashed cs = '/' :: u := by
  cases cs with
  | nil => exact .inl rfl
  | cons c cs => exact .inr ⟨c ++ slashed cs, slashed_cons c cs⟩

theorem absolute_eq_slashed (hne : cs ≠ []) : absolute cs = slashed cs := by
  obtain ⟨c, cs, rfl⟩ := List.exists_cons_of_ne_nil hne
  clear hne
  induction cs generalizing c with
  | nil => simp [absolute, slashed, List.intercalate]
  | cons d cs ih =>
    rw [slashed_cons, ← ih d, absolute, intercalate_cons, absolute]

theorem prefix_append_slash (hd : '/' ∉ d) (ht : t = [] ∨ ∃ u, t = '/' :: u) : d <+: c ++ t ↔ d <+: c := by
  constructor
  · intro h
    rcases Nat.le_total d.length c.length with hle | hle
    · exact List.prefix_of_prefix_length_le h (List.prefix_append c t) hle
    · obtain ⟨x, rfl⟩ := List.prefix_of_prefix_length_le (List.prefix_append c t) h hle
      rw [List.prefix_append_right_inj] at h
      rcases ht with rfl | ⟨u, rfl⟩
      · rw [List.prefix_nil.mp h, List.append_nil]
      · cases x with
        | nil => rw [List.append_nil]
        | cons y x =>
          rw [(List.cons_prefix_cons.mp h).1] at hd
          exact absurd (by simp) hd
  · exact fun h => h.trans (List.prefix_append c t)

theorem segment_slashed (ht : t = [] ∨ ∃ u, t = '/' :: u) : segment t = [] := by
  rcases ht with rfl | ⟨u, rfl⟩
  · rfl
  · simp [segment]

theorem slash_prefix_append (hd : '/' ∉ d) (hc : '/' ∉ c) (ht : t = [] ∨ ∃ u, t = '/' :: u) :
    d ++ '/' :: s <+: c ++ t ↔ d = c ∧ '/' :: s <+: t := by
  constructor
  · rintro ⟨y, hy⟩
    have hseg := congrArg segment hy
    rw [List.append_assoc, List.cons_append, segment_append hd, segment_append hc, segment_slashed ht,
      segment_slashed (.inr ⟨s ++ y, rfl⟩), List.append_nil, List.append_nil] at hseg
    subst hseg
    rw [List.append_assoc, List.append_cancel_left_eq] at hy
    exact ⟨rfl, y, hy⟩
  · rintro ⟨rfl, h⟩
    exact (List.prefix_append_right_inj d).mpr h

/-- A slash separates: a text that begins a path is made of its first components, the last of them
perhaps cut. -/
theorem slashed_prefix_iff (hds : ∀ d ∈ ds, '/' ∉ d) (hcs : ∀ c ∈ cs, '/' ∉ c) :
    slashed ds <+: slashed cs ↔ ds <+: cs ∨
      ∃ above d c rest, ds = above ++ [d] ∧ cs = above ++ c :: rest ∧ d <+: c ∧ d ≠ c := by
  induction ds generalizing cs with
  | nil => simp [slashed]
  | cons d ds ih =>
    cases cs with
    | nil => simp [slashed]
    | cons c cs =>
      have hd : '/' ∉ d := hds d List.mem_cons_self
      rw [slashed_cons, slashed_cons, List.cons_prefix_cons, List.cons_prefix_cons]
      cases ds with
      | nil =>
        rw [show slashed [] = [] from rfl, List.append_nil, prefix_append_slash hd (slashed_cases cs)]
        constructor
        · rintro ⟨-, h⟩
          by_cases hdc : d = c
          · exact .inl ⟨hdc, List.nil_prefix⟩
          · exact .inr ⟨[], d, c, cs, rfl, rfl, h, hdc⟩
        · rintro (⟨rfl, -⟩ | ⟨above, d', c', rest, heq, hcons, hpre, -⟩)
          · exact ⟨rfl, List.prefix_refl d⟩
          · cases above with
            | nil =>
              obtain ⟨rfl, -⟩ := List.cons.inj heq
              obtain ⟨rfl, -⟩ := List.cons.inj hcons
              exact ⟨rfl, hpre⟩
            | cons a above => simp at heq
      | cons e ds =>
        have hrest := ih (fun x hx => hds x (List.mem_cons_of_mem d hx)) fun x hx =>
          hcs x (List.mem_cons_of_mem c hx)
        rw [slashed_cons] at hrest
        rw [slashed_cons, slash_prefix_append hd (hcs c List.mem_cons_self) (slashed_cases cs), hrest]
        constructor
        · rintro ⟨-, rfl, h | ⟨above, d', c', rest, heq, hcons, hpre, hne⟩⟩
          · exact .inl ⟨rfl, h⟩
          · exact .inr ⟨d :: above, d', c', rest, by rw [heq]; rfl, by rw [hcons]; rfl, hpre, hne⟩
        · rintro (⟨rfl, h⟩ | ⟨above, d', c', rest, heq, hcons, hpre, hne⟩)
          · exact ⟨rfl, rfl, .inl h⟩
          · cases above with
            | nil => simp at heq
            | cons a above =>
              rw [List.cons_append] at heq hcons
              obtain ⟨rfl, hds'⟩ := List.cons.inj heq
              obtain ⟨rfl, hcs'⟩ := List.cons.inj hcons
              exact ⟨rfl, rfl, .inr ⟨above, d', c', rest, hds', hcs', hpre, hne⟩⟩

theorem components_root_slash (hds : ∀ d ∈ ds, IsComponent d) : components (absolute ds ++ ['/']) = ds := by
  rw [components, tokens_append_sep rfl]
  have hdir := components_absolute hds
  rw [components] at hdir
  rw [hdir]
  simp [tokens, tokensAux, consWord]

/-- A directory with a slash behind it begins the paths below the directory. -/
theorem slash_prefix_iff (hds : ∀ d ∈ ds, IsComponent d) (hcs : ∀ c ∈ cs, IsComponent c) :
    slashed ds ++ ['/'] <+: slashed cs ↔ ds <+: cs ∧ ds ≠ cs := by
  have hempty : slashed ds ++ ['/'] = slashed (ds ++ [[]]) := by simp [slashed]
  have hfree : ∀ d ∈ ds ++ [[]], '/' ∉ d := by
    intro d hd
    rcases List.mem_append.mp hd with hd | hd
    · exact (hds d hd).2
    · rw [List.mem_singleton.mp hd]
      simp
  rw [hempty, slashed_prefix_iff hfree fun c hc => (hcs c hc).2]
  constructor
  · rintro (⟨t, rfl⟩ | ⟨above, d, c, rest, heq, rfl, -, -⟩)
    · exact absurd rfl (hcs [] (by simp)).1
    · obtain ⟨rfl, -⟩ := List.append_inj' heq rfl
      exact ⟨List.prefix_append _ _, by simp⟩
  · rintro ⟨⟨t, rfl⟩, hne⟩
    cases t with
    | nil => simp at hne
    | cons c rest => exact .inr ⟨ds, [], c, rest, rfl, rfl, List.nil_prefix, (hcs c (by simp)).1.symm⟩

theorem IsDirectory.eq (h : IsDirectory e) :
    e = absolute (components e) ∨ components e ≠ [] ∧ e = absolute (components e) ++ ['/'] := by
  obtain ⟨ds, hds, rfl | ⟨hne, rfl⟩⟩ := h
  · rw [components_absolute hds]
    exact .inl rfl
  · rw [components_root_slash hds]
    exact .inr ⟨hne, rfl⟩

/-- When a directory of the list is the path's own or one above. -/
theorem IsDirectory.contains_iff (h : IsDirectory e) (hcs : ∀ c ∈ cs, IsComponent c) :
    components e <+: cs ↔ (Above e cs ∨ e = absolute cs) ∨ e = absolute cs ++ ['/'] := by
  constructor
  · intro hpre
    by_cases heq : components e = cs
    · rcases h.eq with hdir | ⟨-, hdir⟩
      · exact .inl (.inr (by rw [← heq]; exact hdir))
      · exact .inr (by rw [← heq]; exact hdir)
    · exact .inl (.inl ⟨hpre, heq⟩)
  · rintro ((habove | rfl) | rfl)
    · exact habove.1
    · rw [components_absolute hcs]
    · rw [components_root_slash hcs]

theorem beside_components (hcs : ∀ c ∈ cs, IsComponent c) :
    Beside e cs ↔ e = absolute (components e) ∧
      ∃ above d c rest, components e = above ++ [d] ∧ cs = above ++ c :: rest ∧ d <+: c ∧ d ≠ c := by
  constructor
  · rintro ⟨above, d, c, rest, hne, rfl, rfl, hpre, hdc⟩
    have hcomp : ∀ x ∈ above ++ [d], IsComponent x := by
      intro x hx
      rcases List.mem_append.mp hx with hx | hx
      · exact hcs x (List.mem_append_left _ hx)
      · rw [List.mem_singleton.mp hx]
        exact ⟨hne, fun h => (hcs c (by simp)).2 (hpre.subset h)⟩
    rw [components_absolute hcomp]
    exact ⟨rfl, above, d, c, rest, rfl, rfl, hpre, hdc⟩
  · rintro ⟨hdir, above, d, c, rest, heq, hcons, hpre, hdc⟩
    have hmem : d ∈ components e := by
      rw [heq]
      simp
    have hd := mem_components hmem
    exact ⟨above, d, c, rest, hd.1, by rw [← heq]; exact hdir, hcons, hpre, hdc⟩

theorem not_absolute_root (hne : ds ≠ []) (hds : ∀ d ∈ ds, IsComponent d) (t : Str) :
    ¬absolute ds ++ t <+: ['/'] := by
  obtain ⟨d, ds, rfl⟩ := List.exists_cons_of_ne_nil hne
  obtain ⟨c, d, rfl⟩ := List.exists_cons_of_ne_nil (hds d List.mem_cons_self).1
  rw [absolute_eq_slashed hne, slashed_cons, List.cons_append, List.cons_prefix_cons]
  intro h
  simpa using List.prefix_nil.mp h.2

theorem absolute_prefix_iff (hne : ds ≠ []) (hds : ∀ d ∈ ds, IsComponent d) (hcs : ∀ c ∈ cs, IsComponent c) :
    absolute ds <+: absolute cs ↔ ds <+: cs ∨
      ∃ above d c rest, ds = above ++ [d] ∧ cs = above ++ c :: rest ∧ d <+: c ∧ d ≠ c := by
  by_cases hroot : cs = []
  · subst hroot
    have hlong := not_absolute_root hne hds []
    rw [List.append_nil] at hlong
    refine iff_of_false hlong ?_
    rintro (h | ⟨above, d, c, rest, -, h, -⟩)
    · exact hne (List.prefix_nil.mp h)
    · simp at h
  · rw [absolute_eq_slashed hne, absolute_eq_slashed hroot]
    exact slashed_prefix_iff (fun d hd => (hds d hd).2) fun c hc => (hcs c hc).2

theorem absolute_slash_prefix_iff (hne : ds ≠ []) (hds : ∀ d ∈ ds, IsComponent d)
    (hcs : ∀ c ∈ cs, IsComponent c) :
    absolute ds ++ ['/'] <+: absolute cs ↔ ds <+: cs ∧ ds ≠ cs := by
  by_cases hroot : cs = []
  · subst hroot
    exact iff_of_false (not_absolute_root hne hds ['/']) fun h => hne (List.prefix_nil.mp h.1)
  · rw [absolute_eq_slashed hne, absolute_eq_slashed hroot, slash_prefix_iff hds hcs]

/-- When the path begins with the text of a directory of the list. -/
theorem IsDirectory.prefix_iff (h : IsDirectory e) (hcs : ∀ c ∈ cs, IsComponent c) :
    e <+: absolute cs ↔ (Above e cs ∨ e = absolute cs) ∨ Beside e cs := by
  have hds : ∀ d ∈ components e, IsComponent d := fun d => mem_components
  have hself : e = absolute cs → components e = cs := fun heq => by rw [heq, components_absolute hcs]
  rw [beside_components hcs, Above]
  rcases h.eq with hdir | ⟨hne, hdir⟩
  · by_cases hroot : components e = []
    · rw [hroot] at hdir
      rw [hdir]
      refine iff_of_true ⟨['/'].intercalate cs, rfl⟩ (.inl ?_)
      rw [← hdir, hroot]
      by_cases hcs' : cs = []
      · exact .inr (by rw [hcs', hdir])
      · exact .inl ⟨List.nil_prefix, fun heq => hcs' heq.symm⟩
    · have hpre := absolute_prefix_iff hroot hds hcs
      rw [← hdir] at hpre
      rw [hpre]
      constructor
      · rintro (h | hbeside)
        · by_cases heq : components e = cs
          · exact .inl (.inr (by rw [← heq]; exact hdir))
          · exact .inl (.inl ⟨h, heq⟩)
        · exact .inr ⟨hdir, hbeside⟩
      · rintro ((⟨h, -⟩ | heq) | ⟨-, hbeside⟩)
        · exact .inl h
        · exact .inl (by rw [hself heq])
        · exact .inr hbeside
  · have hother : e ≠ absolute (components e) := by
      intro heq
      have hlen := congrArg List.length (hdir.symm.trans heq)
      rw [List.length_append, List.length_singleton] at hlen
      omega
    have hpre := absolute_slash_prefix_iff hne hds hcs
    rw [← hdir] at hpre
    rw [hpre]
    constructor
    · exact fun h => .inl (.inl h)
    · rintro ((h | heq) | ⟨heq, -⟩)
      · exact h
      · exact absurd (by rw [hself heq]; exact heq) hother
      · exact absurd heq hother

/-- The filter drops just the accesses inside the listed directories, if some directory of the list
above the path or the path itself is written for it, or the two kinds of mistakes go together. -/
theorem isDropped_inside_iff (filterdir : Str) (cs : List Str) (hnul : nul ∉ filterdir)
    (hdirs : ∀ e ∈ tokens (· == ':') filterdir, IsDirectory e) (hcs : ∀ c ∈ cs, IsComponent c) :
    (isDropped filterdir (absolute cs) = true ↔ ∃ e ∈ tokens (· == ':') filterdir, components e <+: cs) ↔
      (∃ e ∈ tokens (· == ':') filterdir, Above e cs ∨ e = absolute cs) ∨
        ((∃ e ∈ tokens (· == ':') filterdir, Beside e cs) ↔
        absolute cs ++ ['/'] ∈ tokens (· == ':') filterdir) := by
  have hdrop : isDropped filterdir (absolute cs) = true ↔
      (∃ e ∈ tokens (· == ':') filterdir, Above e cs ∨ e = absolute cs) ∨
        ∃ e ∈ tokens (· == ':') filterdir, Beside e cs := by
    rw [isDropped_iff hnul]
    constructor
    · rintro ⟨e, he, hpre⟩
      rcases ((hdirs e he).prefix_iff hcs).mp hpre with hgood | hbeside
      · exact .inl ⟨e, he, hgood⟩
      · exact .inr ⟨e, he, hbeside⟩
    · rintro (⟨e, he, hgood⟩ | ⟨e, he, hbeside⟩)
      · exact ⟨e, he, ((hdirs e he).prefix_iff hcs).mpr (.inl hgood)⟩
      · exact ⟨e, he, ((hdirs e he).prefix_iff hcs).mpr (.inr hbeside)⟩
  have hinside : (∃ e ∈ tokens (· == ':') filterdir, components e <+: cs) ↔
      (∃ e ∈ tokens (· == ':') filterdir, Above e cs ∨ e = absolute cs) ∨
        absolute cs ++ ['/'] ∈ tokens (· == ':') filterdir := by
    constructor
    · rintro ⟨e, he, hpre⟩
      rcases ((hdirs e he).contains_iff hcs).mp hpre with hgood | rfl
      · exact .inl ⟨e, he, hgood⟩
      · exact .inr he
    · rintro (⟨e, he, hgood⟩ | he)
      · exact ⟨e, he, ((hdirs e he).contains_iff hcs).mpr (.inl hgood)⟩
      · exact ⟨_, he, ((hdirs _ he).contains_iff hcs).mpr (.inr rfl)⟩
  rw [hdrop, hinside]
  generalize (∃ e ∈ tokens (· == ':') filterdir, Above e cs ∨ e = absolute cs) = good
  generalize (∃ e ∈ tokens (· == ':') filterdir, Beside e cs) = beside
  generalize (absolute cs ++ ['/'] ∈ tokens (· == ':') filterdir) = missed
  by_cases hgood : good
  · simp [hgood]
  · simp [hgood]

theorem isDropped_inside_iff_usr :
    (isDropped "/tmp/:/usr".toList (absolute ["usr".toList, "bin".toList]) = true ↔
      ∃ e ∈ tokens (· == ':') "/tmp/:/usr".toList, components e <+: ["usr".toList, "bin".toList]) ↔
      (∃ e ∈ tokens (· == ':') "/tmp/:/usr".toList, Above e ["usr".toList, "bin".toList] ∨
        e = absolute ["usr".toList, "bin".toList]) ∨
        ((∃ e ∈ tokens (· == ':') "/tmp/:/usr".toList, Beside e ["usr".toList, "bin".toList]) ↔
          absolute ["usr".toList, "bin".toList] ++ ['/'] ∈ tokens (· == ':') "/tmp/:/usr".toList) := by
  refine isDropped_inside_iff "/tmp/:/usr".toList ["usr".toList, "bin".toList] (by decide) ?_ ?_
  · have htok : tokens (· == ':') "/tmp/:/usr".toList = ["/tmp/".toList, "/usr".toList] := by decide
    rw [htok]
    intro e he
    rcases List.mem_pair.mp he with rfl | rfl
    · exact ⟨["tmp".toList], by simp [IsComponent], .inr ⟨by simp, by decide⟩⟩
    · exact ⟨["usr".toList], by simp [IsComponent], .inl (by decide)⟩
  · intro c hc
    rcases List.mem_pair.mp hc with rfl | rfl
    · exact ⟨by decide, by decide⟩
    · exact ⟨by decide, by decide⟩

/-- The build directory of one package is the beginning of that of another. -/
theorem isDropped_sibling : ¬∀ (filterdir : Str) (cs : List Str), nul ∉ filterdir →
    (∀ e ∈ tokens (· == ':') filterdir, IsDirectory e) → (∀ c ∈ cs, IsComponent c) →
      (isDropped filterdir (absolute cs) = true ↔ ∃ e ∈ tokens (· == ':') filterdir,
      components e <+: cs) := by
  intro h
  have hclaim := h "/tmp/:/src.a.x.1".toList ["src.a.x.12".toList] (by decide) ?_ ?_
  · have hdropped : isDropped "/tmp/:/src.a.x.1".toList (absolute ["src.a.x.12".toList]) = true := by decide
    obtain ⟨e, he, hpre⟩ := hclaim.mp hdropped
    have hnone : (tokens (· == ':') "/tmp/:/src.a.x.1".toList).all
        (fun e => !(components e).isPrefixOf ["src.a.x.12".toList]) = true := by decide
    have hnot := List.all_eq_true.mp hnone e he
    rw [List.isPrefixOf_iff_prefix.mpr hpre] at hnot
    cases hnot
  · have htok : tokens (· == ':') "/tmp/:/src.a.x.1".toList = ["/tmp/".toList, "/src.a.x.1".toList] := by
      decide
    rw [htok]
    intro e he
    rcases List.mem_pair.mp he with rfl | rfl
    · exact ⟨["tmp".toList], by simp [IsComponent], .inr ⟨by simp, by decide⟩⟩
    · exact ⟨["src.a.x.1".toList], by simp [IsComponent], .inl (by decide)⟩
  · intro c hc
    rw [List.mem_singleton.mp hc]
    exact ⟨by decide, by decide⟩

end Paths

end T2SDE.FlWrapper
