import T2SDE.PkgGlob

namespace T2SDE

open Text Lua

def Rule.covers (r : Rule) (p : Package) : Bool :=
  glob (patternGlobs r.pattern).1 p.repository && glob (patternGlobs r.pattern).2 p.aliasName

def Package.apply (p : Package) (r : Rule) : Package := if r.covers p then p.switch r.mode else p

/-- What a sequence of rules makes of the status of a package: a removed one stays so, and else
the last rule about it counts. -/
def finalStatus (rules : List Rule) (p : Package) : Status :=
  let hits := rules.filter (·.covers p)
  if p.status = .removed ∨ ∃ r ∈ hits, r.mode = .set .removed then .removed
  else
    match hits.getLast? with
    | some r => r.mode.status p
    | none => p.status

theorem Mode.status_removed {mode : Mode} {p : Package} :
    mode.status p = .removed ↔ mode = .set .removed := by
  cases mode <;> simp [status]

theorem finalStatus_removed {rules : List Rule} {p : Package} :
    finalStatus rules p = .removed ↔
      p.status = .removed ∨ ∃ r ∈ rules.filter (·.covers p), r.mode = .set .removed := by
  unfold finalStatus
  dsimp only
  split_ifs with h
  · simp only [h]
  · simp only [h, iff_false]
    rw [not_or] at h
    split
    · rename_i r hr
      rw [Mode.status_removed]
      exact fun hmode => h.2 ⟨r, List.mem_of_getLast? hr, hmode⟩
    · exact h.1

theorem finalStatus_append (rules : List Rule) (r : Rule) (p : Package) :
    finalStatus (rules ++ [r]) p =
      if r.covers p = true ∧ finalStatus rules p ≠ .removed then r.mode.status p
      else finalStatus rules p := by
  cases hr : r.covers p with
  | false =>
    have hfilter : (rules ++ [r]).filter (·.covers p) = rules.filter (·.covers p) := by
      simp [List.filter_append, hr]
    rw [if_neg (by simp), finalStatus, hfilter, ← finalStatus]
  | true =>
    have hfilter : (rules ++ [r]).filter (·.covers p) = rules.filter (·.covers p) ++ [r] := by
      simp [List.filter_append, hr]
    by_cases hremoved : finalStatus rules p = .removed
    · rw [if_neg (by simp [hremoved]), hremoved, finalStatus_removed, hfilter]
      rcases finalStatus_removed.mp hremoved with h | ⟨x, hx, hmode⟩
      · exact .inl h
      · exact .inr ⟨x, List.mem_append_left _ hx, hmode⟩
    · rw [if_pos ⟨rfl, hremoved⟩]
      by_cases hmode : r.mode = .set .removed
      · rw [Mode.status_removed.mpr hmode, finalStatus_removed, hfilter]
        exact .inr ⟨r, by simp, hmode⟩
      · have hnone : ¬(p.status = .removed ∨
            ∃ x ∈ rules.filter (·.covers p) ++ [r], x.mode = .set .removed) := by
          rw [finalStatus_removed, not_or] at hremoved
          rintro (h | ⟨x, hx, h⟩)
          · exact hremoved.1 h
          · rcases List.mem_append.mp hx with hx | hx
            · exact hremoved.2 ⟨x, hx, h⟩
            · rw [List.mem_singleton.mp hx] at h
              exact hmode h
        rw [finalStatus, hfilter, if_neg hnone, List.getLast?_concat]

theorem finalStatus_nil (p : Package) : finalStatus [] p = p.status := by
  unfold finalStatus
  cases p.status <;> simp

theorem foldl_apply (rules : List Rule) (p : Package) :
    rules.foldl Package.apply p = { p with status := finalStatus rules p } := by
  induction rules using List.reverseRecOn with
  | nil => simp [finalStatus_nil]
  | append_singleton rules r ih =>
    have hcovers : r.covers { p with status := finalStatus rules p } = r.covers p := rfl
    have hmode : r.mode.status { p with status := finalStatus rules p } = r.mode.status p := by
      cases r.mode <;> rfl
    rw [List.foldl_append, ih, List.foldl_cons, List.foldl_nil, Package.apply, Package.switch, hcovers,
      hmode, finalStatus_append]
    by_cases hr : r.covers p = true <;> by_cases hs : finalStatus rules p = .removed <;> simp [hr, hs]

theorem Outcome.andThen_inv {σ : Type} (inv : σ → Prop) {o : Outcome σ} {f : σ → Outcome σ}
    (h : inv o.state) (hf : ∀ s, inv s → inv (f s).state) : inv (o.andThen f).state := by
  unfold Outcome.andThen
  split_ifs
  · exact h
  · exact hf o.state h

theorem pkgselParse_inv {inv : List Package → Prop}
    (hswitch : ∀ mode args packages, inv packages → inv (pkgswitch mode args packages).state)
    (fs : Str → Option Str) (handles : Nat) (filename : Str) {st : LuaState} (h : inv st.packages) :
    inv (pkgselParse fs handles filename st).state.packages := by
  induction handles generalizing filename st with
  | zero => exact h
  | succ handles ih =>
    unfold pkgselParse
    split
    · exact h
    · rename_i text _
      induction fileLines text generalizing st with
      | nil => exact h
      | cons line lines ihl =>
        unfold selLoop
        split
        · exact Outcome.andThen_inv (fun st : LuaState => inv st.packages) (hswitch _ _ _ h) fun _ => ihl
        · exact Outcome.andThen_inv (fun st : LuaState => inv st.packages) (ih _ h) fun _ => ihl
        · exact ihl h

/-- The early end of the loop is harmless where no other package is matched. -/
theorem switchLoop_eq {mode : Mode} {rep pkg : Str} {pkgMatch : Bool} {packages : List Package}
    {hits : Package → Bool} (hmatch : ∀ p ∈ packages, packageMatches rep pkg p = some (hits p))
    (honce : pkgMatch = true → packages.countP hits ≤ 1) :
    switchLoop mode rep pkg pkgMatch packages =
      ⟨packages.map fun p => if hits p then p.switch mode else p, false⟩ := by
  induction packages with
  | nil => rfl
  | cons p packages ih =>
    rw [switchLoop, hmatch p (by simp)]
    have ih := ih (fun q hq => hmatch q (by simp [hq])) fun h =>
      Nat.le_trans ((List.sublist_cons_self p packages).countP_le) (honce h)
    cases hp : hits p with
    | false => simp [hp, ih]
    | true =>
      cases hpkg : pkgMatch with
      | false =>
        rw [hpkg] at ih
        simp [hp, ih]
      | true =>
        have hrest : packages.map (fun q => if hits q then q.switch mode else q) = packages := by
          have hcount := honce hpkg
          rw [List.countP_cons_of_pos hp] at hcount
          have hnone := List.countP_eq_zero.mp (by omega : packages.countP hits = 0)
          refine (List.map_congr_left ?_).trans (List.map_id _)
          intro q hq
          rw [if_neg (hnone q hq), id]
        simp [hp, hrest]

theorem wildcard_free (s : Str) : strMatches (expand s) "*".toList = some false ↔ '*' ∉ s := by
  have hsteps : parseSteps "*".toList.length "*".toList = [.item (.single (.char '*') .one)] := by
    decide +kernel
  rw [strMatches_char (by decide) hsteps]
  simp [wildcard_mem_expand]

/-- Whether a pattern matches a package; none where it is malformed. -/
def patternMatches (pattern : Str) (p : Package) : Option Bool :=
  packageMatches (expand (splitArg pattern).1) (expand (splitArg pattern).2) p

/-- A well-formed pattern that matches one package at most if its package part has no wildcard. -/
structure Reaches (pattern : Str) (packages : List Package) : Prop where
  wellFormed : ∀ p ∈ packages, (patternMatches pattern p).isSome
  once : '*' ∉ (splitArg pattern).2 → packages.countP (patternMatches pattern · = some true) ≤ 1

theorem pkgswitch_reaches {pattern : Str} {packages : List Package} (h : Reaches pattern packages)
    (mode : Mode) : pkgswitch mode [pattern] packages =
      ⟨packages.map fun p => if patternMatches pattern p = some true then p.switch mode else p, false⟩ := by
  have hmatch : ∀ p ∈ packages, packageMatches (expand (splitArg pattern).1)
      (expand (splitArg pattern).2) p = some (decide (patternMatches pattern p = some true)) := by
    intro p hp
    obtain ⟨b, hb⟩ := Option.isSome_iff_exists.mp (h.wellFormed p hp)
    rw [hb]
    cases b <;> exact hb
  unfold pkgswitch
  dsimp only
  rw [switchLoop_eq hmatch fun hfree => h.once ((wildcard_free _).mp (of_decide_eq_true hfree))]
  simp [Outcome.andThen, pkgswitch]

section Rules

variable {r : Rule}

theorem patternMatches_eq (h : RulePattern r.pattern) (p : Package) :
    patternMatches r.pattern p = some (r.covers p) := by
  obtain ⟨hrep, hpkg⟩ := patternGlobs_chars h
  rw [patternMatches, splitArg_eq h.2, packageMatches, strMatches_expand fun c hc =>
    nameChar_literal (hpkg c hc),
    strMatches_expand fun c hc => nameChar_literal (hrep c hc),
    Option.bind_some, Rule.covers]
  cases glob (patternGlobs r.pattern).2 p.aliasName <;> simp

theorem countP_covers {packages : List Package} (hliteral : '*' ∉ (patternGlobs r.pattern).2)
    (hnames : (packages.map Package.aliasName).Nodup) : packages.countP r.covers ≤ 1 := by
  have hname : ∀ p, r.covers p = true → p.aliasName = (patternGlobs r.pattern).2 := by
    intro p hp
    rw [Rule.covers, Bool.and_eq_true, glob_literal hliteral] at hp
    exact hp.2
  induction packages with
  | nil => simp
  | cons p packages ih =>
    rw [List.map_cons, List.nodup_cons] at hnames
    by_cases hp : r.covers p = true
    · have hnone : packages.countP r.covers = 0 := by
        rw [List.countP_eq_zero]
        intro q hq hcovers
        exact hnames.1 ((hname p hp).trans (hname q hcovers).symm ▸ List.mem_map_of_mem hq)
      rw [List.countP_cons_of_pos hp, hnone]
    · rw [List.countP_cons_of_neg hp]
      exact ih hnames.2

theorem reaches_rule (h : RulePattern r.pattern) {packages : List Package}
    (hnames : (packages.map Package.aliasName).Nodup) : Reaches r.pattern packages where
  wellFormed := by
    intro p _
    rw [patternMatches_eq h, Option.isSome_some]
  once := by
    rw [splitArg_eq h.2]
    intro hliteral
    simpa [patternMatches_eq h] using countP_covers hliteral hnames

theorem pkgswitch_rule (h : RulePattern r.pattern) {packages : List Package}
    (hnames : (packages.map Package.aliasName).Nodup) :
    pkgswitch r.mode [r.pattern] packages = ⟨packages.map (·.apply r), false⟩ := by
  rw [pkgswitch_reaches (reaches_rule h hnames)]
  simp [patternMatches_eq h, Package.apply]

end Rules

/-- A word of a selection line. -/
def SelWord (s : Str) : Prop := s ≠ [] ∧ ∀ c ∈ s, percentClass 'S' c = true ∧ c ≠ '#'

theorem SelWord.nonspace {s : Str} (h : SelWord s) :
    ∀ c ∈ s, (CharClass.percent 'S').admits c = true :=
  fun c hc => (h.2 c hc).1

theorem SelWord.no_comment {s : Str} (h : SelWord s) : ∀ c ∈ s, decide (c ≠ '#') = true :=
  fun c hc => decide_eq_true (h.2 c hc).2

section Words

variable {action blanks pattern rest : Str}

theorem match_words (haction : SelWord action) (hblanks : blanks ≠ [] ∧ ∀ c ∈ blanks, c = ' ')
    (hpattern : SelWord pattern) (hrest : Stops (percentClass 'S') rest) :
    strMatch (action ++ (blanks ++ (pattern ++ rest))) "(%S+) +(%S+)".toList =
      some [action, pattern] := by
  have hc : compile "(%S+) +(%S+)".toList = some ⟨false, [.openCapture, .single (.percent 'S') .plus,
      .closeCapture, .single (.char ' ') .plus, .openCapture, .single (.percent 'S') .plus,
      .closeCapture]⟩ := by
    decide +kernel
  have hblank : ∀ c ∈ blanks, (CharClass.char ' ').admits c = true := by
    intro c hmem
    rw [hblanks.2 c hmem]
    rfl
  have hbehindAction : Stops (CharClass.percent 'S').admits (blanks ++ (pattern ++ rest)) := by
    obtain ⟨b, t, rfl⟩ := List.exists_cons_of_ne_nil hblanks.1
    rw [hblanks.2 b (by simp)]
    exact stops_cons (by decide) _
  have hbehindBlanks : Stops (CharClass.char ' ').admits (pattern ++ rest) := by
    obtain ⟨p, t, rfl⟩ := List.exists_cons_of_ne_nil hpattern.1
    refine stops_cons ?_ _
    have hnonspace := hpattern.nonspace p (by simp)
    rw [CharClass.admits, beq_eq_false_iff_ne]
    rintro rfl
    simp [CharClass.admits, percentClass] at hnonspace
  have hsecond : doMatch [.openCapture, .single (.percent 'S') .plus, .closeCapture]
      (pattern ++ rest) [.text action] = some (rest, [.text pattern, .text action]) :=
    doMatch_field hpattern.1 hpattern.nonspace hrest rfl
  exact strMatch_start (by simp) hc (doMatch_field haction.1 haction.nonspace hbehindAction
    (doMatch_plusSkip hblanks.1 hblank hbehindBlanks hsecond))

/-- A line is read as its first two words, whatever follows them or stands in a comment. -/
theorem selLine_words (haction : SelWord action) (hblanks : blanks ≠ [] ∧ ∀ c ∈ blanks, c = ' ')
    (hpattern : SelWord pattern) (hrest : Stops (percentClass 'S') (rest.takeWhile (· ≠ '#'))) :
    selLine (action ++ (blanks ++ (pattern ++ rest))) = selAction action pattern := by
  have hc : compile "#.*".toList = some ⟨false, [.single (.char '#') .one, .single .any .star]⟩ := by
    decide +kernel
  have hblank : ∀ c ∈ blanks, decide (c ≠ '#') = true := by
    intro c hmem
    rw [hblanks.2 c hmem]
    rfl
  rw [selLine, gsub_tail hc, List.takeWhile_append_of_pos haction.no_comment,
    List.takeWhile_append_of_pos hblank, List.takeWhile_append_of_pos hpattern.no_comment,
    match_words haction hblanks hpattern hrest]

end Words

/-- A tree of selection files: the includes of a file end, and its rules have patterns over the
characters of names. -/
inductive SelTree (fs : Str → Option Str) : Str → Prop
  | missing {filename : Str} (h : fs filename = none) : SelTree fs filename
  | file {filename text : Str} (h : fs filename = some text)
      (rules : ∀ line ∈ fileLines text, ∀ r, selLine line = .rule r → RulePattern r.pattern)
      (includes : ∀ line ∈ fileLines text, ∀ inner, selLine line = .file inner → SelTree fs inner) :
      SelTree fs filename

instance (s : Str) : Decidable (RulePattern s) :=
  decidable_of_iff (s.all (fun c => nameChar c || c == '*' || c == '/') = true ∧ s.count '/' ≤ 1) (by
    simp [RulePattern, List.all_eq_true, or_assoc])

/-- A test for trees of selection files that are not nested deeper than given. -/
def checkTree (fs : Str → Option Str) : Nat → Str → Bool
  | 0, _ => false
  | depth + 1, filename =>
    match fs filename with
    | none => true
    | some text =>
      (fileLines text).all fun line =>
        match selLine line with
        | .rule r => decide (RulePattern r.pattern)
        | .file inner => checkTree fs depth inner
        | .other => true

theorem SelTree.of_check {fs : Str → Option Str} {depth : Nat} {filename : Str}
    (h : checkTree fs depth filename = true) : SelTree fs filename := by
  induction depth generalizing filename with
  | zero => cases h
  | succ depth ih =>
    unfold checkTree at h
    split at h
    · rename_i hmissing
      exact .missing hmissing
    · rename_i text htext
      rw [List.all_eq_true] at h
      refine .file htext ?_ ?_
      · intro line hline r hr
        have hrule := h line hline
        rw [hr] at hrule
        exact of_decide_eq_true hrule
      · intro line hline inner hinner
        have hfile := h line hline
        rw [hinner] at hfile
        exact ih hfile

/-- The rules of some lines, where `flat` gives those of an included file. -/
def flatLines (flat : Str → Option (List Rule)) : List Str → Option (List Rule)
  | [] => some []
  | line :: lines =>
    match selLine line with
    | .rule r => (flatLines flat lines).map (r :: ·)
    | .file inner => (flat inner).bind fun rules => (flatLines flat lines).map (rules ++ ·)
    | .other => flatLines flat lines

/-- The rules of a file with every include expanded in place; none where the files are nested
deeper than given. -/
def flatRules (fs : Str → Option Str) : Nat → Str → Option (List Rule)
  | 0, _ => none
  | depth + 1, filename =>
    match fs filename with
    | none => some []
    | some text => flatLines (flatRules fs depth) (fileLines text)

def Applied (rules : List Rule) (st : LuaState) (o : Outcome LuaState) : Prop :=
  o.raised = false ∧ o.state.packages = st.packages.map (rules.foldl Package.apply)

theorem Applied.nodup {rules : List Rule} {st : LuaState} {o : Outcome LuaState} (h : Applied rules st o)
    (hnames : (st.packages.map Package.aliasName).Nodup) :
    (o.state.packages.map Package.aliasName).Nodup := by
  have hsame : Package.aliasName ∘ rules.foldl Package.apply = Package.aliasName := by
    funext p
    rw [Function.comp, foldl_apply]
  rwa [h.2, List.map_map, hsame]

theorem Applied.andThen {first second : List Rule} {st : LuaState} {o : Outcome LuaState}
    {f : LuaState → Outcome LuaState} (h : Applied first st o) (hf : Applied second o.state (f o.state)) :
    Applied (first ++ second) st (o.andThen f) := by
  rw [Outcome.andThen, h.1, if_neg (by simp)]
  refine ⟨hf.1, ?_⟩
  rw [hf.2, h.2, List.map_map]
  apply List.map_congr_left
  intro p _
  rw [List.foldl_append]
  rfl

theorem selLoop_applied {parse : Str → LuaState → Outcome LuaState} {flat : Str → Option (List Rule)}
    {lines : List Str} (hrules : ∀ line ∈ lines, ∀ r, selLine line = .rule r → RulePattern r.pattern)
    (hfiles : ∀ line ∈ lines, ∀ inner, selLine line = .file inner → ∀ rules, flat inner = some rules →
      ∀ st : LuaState, (st.packages.map Package.aliasName).Nodup → Applied rules st (parse inner st))
    {rules : List Rule} (hflat : flatLines flat lines = some rules) (st : LuaState)
    (hnames : (st.packages.map Package.aliasName).Nodup) :
    Applied rules st (selLoop parse lines st) := by
  induction lines generalizing rules st with
  | nil =>
    cases hflat
    exact ⟨rfl, (List.map_id _).symm⟩
  | cons line lines ih =>
    have ih := @ih (fun l hl => hrules l (by simp [hl])) fun l hl => hfiles l (by simp [hl])
    rw [flatLines] at hflat
    rw [selLoop]
    cases hline : selLine line with
    | rule r =>
      rw [hline] at hflat
      obtain ⟨rest, hrest, rfl⟩ := Option.map_eq_some_iff.mp hflat
      have hfirst : Applied [r] st ⟨{ st with packages := st.packages.map (·.apply r) }, false⟩ :=
        ⟨rfl, rfl⟩
      dsimp only
      rw [pkgswitch_rule (hrules line (by simp) r hline) hnames]
      exact hfirst.andThen (ih hrest _ (hfirst.nodup hnames))
    | file inner =>
      rw [hline] at hflat
      obtain ⟨first, hinner, hflat⟩ := Option.bind_eq_some_iff.mp hflat
      obtain ⟨rest, hrest, rfl⟩ := Option.map_eq_some_iff.mp hflat
      have hfirst := hfiles line (by simp) inner hline first hinner st hnames
      exact hfirst.andThen (ih hrest _ (hfirst.nodup hnames))
    | other =>
      rw [hline] at hflat
      exact ih hflat st hnames

variable {fs : Str → Option Str} {filename : Str}

theorem flatRules_depth {depth : Nat} {rules : List Rule} (h : flatRules fs depth filename = some rules) :
    ∃ n, depth = n + 1 := by
  cases depth with
  | zero => cases h
  | succ n => exact ⟨n, rfl⟩

theorem pkgselParse_applied (htree : SelTree fs filename) {depth handles : Nat} {rules : List Rule}
    (hflat : flatRules fs depth filename = some rules) (hdepth : depth ≤ handles) (st : LuaState)
    (hnames : (st.packages.map Package.aliasName).Nodup) :
    Applied rules st (pkgselParse fs handles filename st) := by
  induction htree generalizing depth handles rules st with
  | missing h =>
    obtain ⟨depth, rfl⟩ := flatRules_depth hflat
    obtain ⟨handles, rfl⟩ := Nat.exists_eq_add_of_lt hdepth
    rw [flatRules, h] at hflat
    cases hflat
    rw [pkgselParse, h]
    exact ⟨rfl, (List.map_id _).symm⟩
  | file h hrules hincludes ih =>
    obtain ⟨depth, rfl⟩ := flatRules_depth hflat
    obtain ⟨handles, rfl⟩ := Nat.exists_eq_add_of_lt hdepth
    rw [flatRules, h] at hflat
    rw [pkgselParse, h]
    refine selLoop_applied hrules ?_ hflat st hnames
    intro line hline inner hfile rules hinner st hnames
    exact ih line hline inner hfile hinner (by omega) st hnames

theorem flatLines_mono {flat flat' : Str → Option (List Rule)} {lines : List Str} {rules : List Rule}
    (hflat : ∀ line ∈ lines, ∀ inner, selLine line = .file inner → ∀ rules, flat inner = some rules →
      flat' inner = some rules)
    (h : flatLines flat lines = some rules) : flatLines flat' lines = some rules := by
  induction lines generalizing rules with
  | nil => exact h
  | cons line lines ih =>
    have ih {rest : List Rule} : flatLines flat lines = some rest → flatLines flat' lines = some rest :=
      ih fun l hl => hflat l (by simp [hl])
    rw [flatLines] at h ⊢
    cases hline : selLine line with
    | rule r =>
      rw [hline] at h
      obtain ⟨rest, hrest, rfl⟩ := Option.map_eq_some_iff.mp h
      dsimp only
      rw [ih hrest, Option.map_some]
    | file inner =>
      rw [hline] at h
      obtain ⟨first, hinner, h⟩ := Option.bind_eq_some_iff.mp h
      obtain ⟨rest, hrest, rfl⟩ := Option.map_eq_some_iff.mp h
      dsimp only
      rw [hflat line (by simp) inner hline first hinner, Option.bind_some, ih hrest, Option.map_some]
    | other =>
      rw [hline] at h
      exact ih h

theorem flatRules_mono {depth depth' : Nat} {rules : List Rule} (h : flatRules fs depth filename = some rules)
    (hle : depth ≤ depth') : flatRules fs depth' filename = some rules := by
  induction depth generalizing depth' filename rules with
  | zero => cases h
  | succ depth ih =>
    obtain ⟨depth', rfl⟩ := Nat.exists_eq_add_of_lt hle
    unfold flatRules at h ⊢
    split at h
    · exact h
    · exact flatLines_mono (fun _ _ _ _ _ hinner => ih hinner (by omega)) h

theorem flatLines_exists {lines : List Str}
    (h : ∀ line ∈ lines, ∀ inner, selLine line = .file inner →
      ∃ depth rules, flatRules fs depth inner = some rules) :
    ∃ depth rules, flatLines (flatRules fs depth) lines = some rules := by
  induction lines with
  | nil => exact ⟨0, [], rfl⟩
  | cons line lines ih =>
    obtain ⟨depth, rest, hrest⟩ := ih fun l hl => h l (by simp [hl])
    cases hline : selLine line with
    | rule r => exact ⟨depth, r :: rest, by simp [flatLines, hline, hrest]⟩
    | other => exact ⟨depth, rest, by simp [flatLines, hline, hrest]⟩
    | file inner =>
      obtain ⟨depth', first, hfirst⟩ := h line (by simp) inner hline
      have hfirst := flatRules_mono hfirst (Nat.le_max_left depth' depth)
      have hrest := flatLines_mono (fun _ _ _ _ _ hinner => flatRules_mono hinner
        (Nat.le_max_right depth' depth)) hrest
      exact ⟨max depth' depth, first ++ rest, by simp [flatLines, hline, hfirst, hrest]⟩

theorem SelTree.flat (htree : SelTree fs filename) :
    ∃ depth rules, flatRules fs depth filename = some rules := by
  induction htree with
  | missing h => exact ⟨1, [], by rw [flatRules, h]⟩
  | file h hrules hincludes ih =>
    obtain ⟨depth, rules, hflat⟩ := flatLines_exists ih
    exact ⟨depth + 1, rules, by rw [flatRules, h]; exact hflat⟩

/-- After a selection file has been read, the expanded rules alone decide each status: a removed
package stays removed, and else the last rule about a package counts. Nothing else changes. -/
theorem last_rule_wins (htree : SelTree fs filename) (st : LuaState)
    (hnames : (st.packages.map Package.aliasName).Nodup) :
    ∃ depth rules, flatRules fs depth filename = some rules ∧ ∀ handles, depth ≤ handles →
      (pkgselParse fs handles filename st).raised = false ∧
        (pkgselParse fs handles filename st).state.packages =
          st.packages.map fun p => { p with status := finalStatus rules p } := by
  obtain ⟨depth, rules, hflat⟩ := htree.flat
  refine ⟨depth, rules, hflat, fun handles hdepth => ?_⟩
  obtain ⟨hraised, hpackages⟩ := pkgselParse_applied htree hflat hdepth st hnames
  refine ⟨hraised, ?_⟩
  rw [hpackages, funext (foldl_apply rules)]

def sampleFiles (filename : Str) : Option Str :=
  if filename = "target".toList then some "include base # first\n= perl/*\n- lua".toList
  else if filename = "base".toList then some "O perl/p-*\nX gcc".toList
  else none

def samplePackage (repository name : String) (status : Selection) : Package :=
  { status := .selected status, stages := "0".toList, priority := "1".toList
    repository := repository.toList, name := name.toList, ver := "1".toList, extraver := []
    categories := none, flags := [], aliasName := name.toList, defaultStatus := .on }

def sampleState : LuaState :=
  { packages := [samplePackage "develop" "gcc" .off, samplePackage "develop" "lua" .on,
      samplePackage "perl" "p-1" .off]
    printed := [] }

theorem last_rule_wins_sample : ∃ depth rules, flatRules sampleFiles depth "target".toList = some rules ∧
    ∀ handles, depth ≤ handles →
      (pkgselParse sampleFiles handles "target".toList sampleState).raised = false ∧
        (pkgselParse sampleFiles handles "target".toList sampleState).state.packages =
          sampleState.packages.map fun p => { p with status := finalStatus rules p } :=
  last_rule_wins (.of_check (by decide +kernel : checkTree sampleFiles 2 "target".toList = true))
    sampleState (by decide +kernel)

end T2SDE
