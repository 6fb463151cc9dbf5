import Mathlib.Data.List.TakeWhile
import T2SDE.PkgSel

namespace T2SDE

open Text Lua

/-- The characters behind the blanks in the filter of the custom package selection. -/
def filterName (c : Char) : Bool := c.isAlphanum || "_/*+.-".toList.contains c

def filterBlank (c : Char) : Bool := c == ' ' || c == '\t'

def filterAction (c : Char) : Bool := "-xXoO=".toList.contains c

/-- `grep "^[-xXoO=][ \t]\+[a-zA-Z0-9_/*+.-]"` -/
def filterAccepts : Str → Bool
  | c :: b :: s => filterAction c && filterBlank b && (s.dropWhile filterBlank).head?.any filterName
  | _ => false

/-- What the two sides of a Lua comparison can be here. -/
inductive LuaOperand
  | boolean (b : Bool)
  | string (s : Str)
  deriving DecidableEq

def strip (line : Str) : Str := gsub line "#.*".toList fun _ => []

/-- What `pkgsel_parse` prints for a line without a known action: `not line` is false. -/
def selPrinted (line : Str) : List Str :=
  match selLine line with
  | .other =>
    if LuaOperand.boolean false = .string [] then ["Syntax error in: ".toList ++ strip line] else []
  | _ => []

/-- The fields of a line without its comment. -/
def selFields (line : Str) : List Str := tokens (percentClass 's') (strip line)

/-- The filter and the parser agree on a line: it is accepted exactly if a rule is applied, which
is then the first character with the second field; otherwise it is blank or reported. -/
structure SelAgrees (line : Str) : Prop where
  accepted : filterAccepts line = true ↔ ∃ r, selLine line = .rule r
  applied : (∃ r, selLine line = .rule r) →
    ∃ c s field, line = c :: s ∧ (selFields line)[1]? = some field ∧ selLine line = selAction [c] field
  reported : (¬∃ r, selLine line = .rule r) → selFields line ≠ [] → selPrinted line ≠ []

/-- A line that begins with an action, blanks and a character of names, so that the parser reads
the action with the second field. -/
inductive RuleLine (line : Str) : Prop
  | spaces (c d : Char) (bs s : Str) (hline : line = c :: (bs ++ d :: s)) (haction : filterAction c = true)
      (hne : bs ≠ []) (hspaces : ∀ b ∈ bs, b = ' ') (hname : filterName d = true)
  /-- later words that repeat the first two fields -/
  | repeated (c d : Char) (bs s : Str) (hline : line = c :: (bs ++ d :: s)) (haction : filterAction c = true)
      (hblanks : ∀ b ∈ bs, filterBlank b = true) (htab : '\t' ∈ bs) (hname : filterName d = true)
      (action field : Str) (hfield : (selFields line)[1]? = some field)
      (hmatch : strMatch (strip (d :: s)) "(%S+) +(%S+)".toList = some [action, field])
      (hsame : selAction action field = selAction [c] field)

section Words

def wordsItems : List Item := [.openCapture, .single (.percent 'S') .plus, .closeCapture,
  .single (.char ' ') .plus, .openCapture, .single (.percent 'S') .plus, .closeCapture]

theorem compile_words : compile "(%S+) +(%S+)".toList = some ⟨false, wordsItems⟩ := by decide +kernel

theorem percentClass_S (c : Char) : percentClass 'S' c = !percentClass 's' c := rfl

/-- A word does not begin at a blank. -/
theorem doMatch_word_none {items : List Item} {s : Str} (hs : ∀ c t, s = c :: t → percentClass 's' c = true)
    (cs : List Capture) :
    doMatch (.openCapture :: .single (.percent 'S') .plus :: .closeCapture :: items) s cs = none := by
  cases s with
  | nil => rfl
  | cons c s =>
    have hc : (CharClass.percent 'S').admits c = false := by
      rw [CharClass.admits, percentClass_S, hs c s rfl]
      rfl
    rw [doMatch_plusCapture, hc]
    rfl

theorem searchFrom_blank {b : Char} (hb : percentClass 's' b = true) (s : Str) :
    searchFrom wordsItems (b :: s) = searchFrom wordsItems s := by
  have hnone : doMatch wordsItems (b :: s) [] = none := by
    refine doMatch_word_none ?_ []
    intro c t h
    rw [← (List.cons.inj h).1, hb]
  rw [searchFrom, hnone]

theorem searchFrom_blanks {bs : Str} (hbs : ∀ b ∈ bs, percentClass 's' b = true) (s : Str) :
    searchFrom wordsItems (bs ++ s) = searchFrom wordsItems s := by
  induction bs with
  | nil => rfl
  | cons b bs ih =>
    rw [List.cons_append, searchFrom_blank (hbs b (by simp)), ih fun x hx => hbs x (by simp [hx])]

theorem filterBlank_space {b : Char} (h : filterBlank b = true) : percentClass 's' b = true := by
  have hcases : b = ' ' ∨ b = '\t' := by simpa [filterBlank] using h
  rcases hcases with rfl | rfl
  · rfl
  · rfl

/-- A character and a word are no pair if a tab stands between them. -/
theorem doMatch_tab {c : Char} {bs : Str} (hne : bs ≠ []) (hbs : ∀ b ∈ bs, filterBlank b = true)
    (htab : '\t' ∈ bs)
    (s : Str) : doMatch wordsItems (c :: (bs ++ s)) [] = none := by
  obtain ⟨b, bs, rfl⟩ := List.exists_cons_of_ne_nil hne
  have hb := filterBlank_space (hbs b (by simp))
  have hstop : Stops (CharClass.percent 'S').admits (b :: bs ++ s) := by
    refine stops_cons ?_ _
    rw [CharClass.admits, percentClass_S, hb]
    rfl
  rw [wordsItems, doMatch_plusCapture]
  split_ifs
  · rw [maxExpand_stop hstop]
    by_cases hspace : b = ' '
    · subst hspace
      have htab : '\t' ∈ bs := by simpa using htab
      show maxExpand (fun u => doMatch _ u _) (CharClass.char ' ').admits (bs ++ s) = none
      rw [← Option.not_isSome_iff_eq_none, maxExpand_isSome]
      rintro ⟨run, rest, hsplit, hrun, hword⟩
      -- the run of spaces ends before the tab
      have hhead : ∀ c t, rest = c :: t → percentClass 's' c = true := by
        intro c t hrest
        have hspaces : '\t' ∉ run := fun h => absurd (hrun _ h) (by decide)
        rcases List.append_eq_append_iff.mp hsplit with ⟨mid, rfl, _⟩ | ⟨mid, rfl, hmid⟩
        · exact absurd (List.mem_append_left _ htab) hspaces
        · cases mid with
          | nil => exact absurd (by simpa using htab) hspaces
          | cons x mid =>
            rw [hrest] at hmid
            rw [(List.cons.inj hmid).1]
            exact filterBlank_space (hbs x (by simp))
      rw [doMatch_word_none hhead] at hword
      cases hword
    · have hchar : (CharClass.char ' ').admits b = false := by
        simpa [CharClass.admits] using fun h => hspace h.symm
      simp [doMatch, hchar]
  · rfl

end Words

theorem strip_eq (line : Str) : strip line = line.takeWhile (· ≠ '#') := by
  have hc : compile "#.*".toList = some ⟨false, [.single (.char '#') .one, .single .any .star]⟩ := by
    decide +kernel
  exact gsub_tail hc line

theorem filterAccepts_iff (line : Str) : filterAccepts line = true ↔
    ∃ c bs d s, line = c :: (bs ++ d :: s) ∧ filterAction c = true ∧ bs ≠ [] ∧
      (∀ b ∈ bs, filterBlank b = true) ∧ filterName d = true := by
  constructor
  · intro h
    rcases line with _ | ⟨c, _ | ⟨b, s⟩⟩
    · cases h
    · cases h
    obtain ⟨⟨haction, hb⟩, hname⟩ : (filterAction c = true ∧ filterBlank b = true) ∧
        (s.dropWhile filterBlank).head?.any filterName = true := by
      simpa [filterAccepts] using h
    obtain ⟨d, hd, hfits⟩ := (Option.any_eq_true _ _).mp hname
    obtain ⟨t, ht⟩ := List.head?_eq_some_iff.mp hd
    refine ⟨c, b :: s.takeWhile filterBlank, d, t, ?_, haction, by simp, ?_, hfits⟩
    · rw [List.cons_append, ← ht, List.takeWhile_append_dropWhile]
    · intro x hx
      rcases List.mem_cons.mp hx with rfl | hx
      · exact hb
      · exact List.mem_takeWhile_imp hx
  · rintro ⟨c, bs, d, s, rfl, haction, hne, hbs, hname⟩
    obtain ⟨b, bs, rfl⟩ := List.exists_cons_of_ne_nil hne
    have hd : filterBlank d = false := by
      rw [Bool.eq_false_iff]
      intro hblank
      have hcases : d = ' ' ∨ d = '\t' := by simpa [filterBlank] using hblank
      rcases hcases with rfl | rfl
      · cases hname
      · cases hname
    have hdrop : (bs ++ d :: s).dropWhile filterBlank = d :: s := by
      rw [List.dropWhile_append_of_pos fun x hx => hbs x (by simp [hx]),
        List.dropWhile_cons_of_neg (by simp [hd])]
    simp [filterAccepts, haction, hbs b (by simp), hdrop, hname]

theorem selPrinted_eq_nil (line : Str) : selPrinted line = [] := by
  unfold selPrinted
  split
  next => rfl
  next => rfl

theorem selAction_pattern {action pattern : Str} {r : Rule} (h : selAction action pattern = .rule r) :
    r.pattern = pattern := by
  unfold selAction at h
  split_ifs at h
  all_goals
    cases h
    rfl

theorem selAction_filter {c : Char} (hc : filterAction c = true) (pattern : Str) :
    ∃ r, selAction [c] pattern = .rule r := by
  have hmem : c ∈ ['-', 'x', 'X', 'o', 'O', '='] := by simpa [filterAction] using hc
  simp only [List.mem_cons, List.not_mem_nil, or_false] at hmem
  rcases hmem with rfl | rfl | rfl | rfl | rfl | rfl
  · exact ⟨⟨.set .removed, pattern⟩, rfl⟩
  · exact ⟨⟨.set (.selected .on), pattern⟩, rfl⟩
  · exact ⟨⟨.set (.selected .on), pattern⟩, rfl⟩
  · exact ⟨⟨.set (.selected .off), pattern⟩, rfl⟩
  · exact ⟨⟨.set (.selected .off), pattern⟩, rfl⟩
  · exact ⟨⟨.default, pattern⟩, rfl⟩

theorem alphanum_code {c : Char} (h : c.isAlphanum = true) : 48 ≤ c.toNat := by
  have hcode (low : Char) (hle : low.val ≤ c.val) (hlow : 48 ≤ low.val.toNat) : 48 ≤ c.toNat :=
    hlow.trans (UInt32.le_iff_toNat_le.mp hle)
  rcases Bool.or_eq_true_iff.mp h with halpha | hdigit
  · rcases Bool.or_eq_true_iff.mp halpha with hupper | hlower
    · exact hcode 'A' (of_decide_eq_true hupper).1 (by decide)
    · exact hcode 'a' (of_decide_eq_true (Bool.and_eq_true_iff.mp hlower).1) (by decide)
  · exact hcode '0' (of_decide_eq_true (Bool.and_eq_true_iff.mp hdigit).1) (by decide)

theorem space_code {c : Char} (h : percentClass 's' c = true) : c.toNat ≤ 32 := by
  have hcases : (c == ' ' || (decide (9 ≤ c.toNat) && decide (c.toNat ≤ 13))) = true := h
  rcases Bool.or_eq_true_iff.mp hcases with hspace | hrange
  · rw [beq_iff_eq.mp hspace]
    decide
  · have := of_decide_eq_true (Bool.and_eq_true_iff.mp hrange).2
    omega

/-- A character of the filter is neither a space nor a comment sign. -/
theorem filterAction_word {c : Char} (hc : filterAction c = true) : percentClass 's' c = false ∧ c ≠ '#' := by
  have hmem : c ∈ ['-', 'x', 'X', 'o', 'O', '='] := by simpa [filterAction] using hc
  simp only [List.mem_cons, List.not_mem_nil, or_false] at hmem
  rcases hmem with rfl | rfl | rfl | rfl | rfl | rfl
  all_goals decide

theorem filterName_word {c : Char} (hc : filterName c = true) : percentClass 's' c = false ∧ c ≠ '#' := by
  have hcode : 36 < c.toNat := by
    rcases Bool.or_eq_true_iff.mp hc with halnum | hother
    · have := alphanum_code halnum
      omega
    · have hmem : c ∈ ['_', '/', '*', '+', '.', '-'] := by simpa using hother
      simp only [List.mem_cons, List.not_mem_nil, or_false] at hmem
      rcases hmem with rfl | rfl | rfl | rfl | rfl | rfl
      all_goals decide
  refine ⟨?_, ?_⟩
  · rw [Bool.eq_false_iff]
    intro hspace
    have := space_code hspace
    omega
  · rintro rfl
    exact absurd hcode (by decide)

section Fields

variable {c d : Char} {bs s : Str}

theorem filterBlank_no_comment {b : Char} (hb : filterBlank b = true) : b ≠ '#' := by
  rintro rfl
  cases hb

theorem strip_rule (haction : filterAction c = true) (hbs : ∀ b ∈ bs, filterBlank b = true) :
    strip (c :: (bs ++ d :: s)) = c :: (bs ++ strip (d :: s)) := by
  rw [strip_eq, strip_eq, List.takeWhile_cons_of_pos (by simpa using (filterAction_word haction).2),
    List.takeWhile_append_of_pos fun b hb => by simpa using filterBlank_no_comment (hbs b hb)]

/-- The field at the start of a text, and what stands behind it without the comment. -/
theorem strip_field (t : Str) : ∃ field rest, t = field ++ rest ∧
    (∀ c ∈ field, percentClass 's' c = false ∧ c ≠ '#') ∧
      Stops (percentClass 'S') (rest.takeWhile (· ≠ '#')) := by
  obtain ⟨field, rest, ht, hfield, hrest⟩ := exists_run (fun c => !percentClass 's' c && c != '#') t
  refine ⟨field, rest, ht, fun c hc => by simpa using hfield c hc, ?_⟩
  intro x u hx
  cases rest with
  | nil => cases hx
  | cons y rest =>
    have hy : percentClass 's' y = true ∨ y = '#' := by
      have := hrest y rest rfl
      rw [Bool.and_eq_false_iff] at this
      simpa using this
    by_cases hcomment : y = '#'
    · rw [List.takeWhile_cons_of_neg (by simpa using hcomment)] at hx
      cases hx
    · rw [List.takeWhile_cons_of_pos (by simpa using hcomment)] at hx
      rw [← (List.cons.inj hx).1, percentClass_S, hy.resolve_right hcomment]
      rfl

theorem selFields_rule (haction : filterAction c = true) (hne : bs ≠ [])
    (hbs : ∀ b ∈ bs, filterBlank b = true)
    {field rest : Str} (ht : d :: s = field ++ rest)
    (hfield : ∀ c ∈ field, percentClass 's' c = false ∧ c ≠ '#')
    (hfits : field ≠ []) (hrest : Stops (percentClass 'S') (rest.takeWhile (· ≠ '#'))) :
    ∃ fields, selFields (c :: (bs ++ d :: s)) = [c] :: field :: fields := by
  obtain ⟨b, bs, rfl⟩ := List.exists_cons_of_ne_nil hne
  have hc : ∀ x ∈ [c], percentClass 's' x = false := by
    intro x hx
    rw [List.mem_singleton.mp hx]
    exact (filterAction_word haction).1
  have hspaces : ∀ x ∈ bs, percentClass 's' x = true := fun x hx => filterBlank_space (hbs x (by simp [hx]))
  have hstrip : strip (d :: s) = field ++ rest.takeWhile (· ≠ '#') := by
    rw [strip_eq, ht, List.takeWhile_append_of_pos fun x hx => by simpa using (hfield x hx).2]
  have hfirst : selFields (c :: (b :: bs ++ d :: s)) =
      [c] :: tokens (percentClass 's') (field ++ rest.takeWhile (· ≠ '#')) := by
    have htext : strip (c :: (b :: bs ++ d :: s)) = [c] ++ b :: (bs ++ strip (d :: s)) :=
      strip_rule haction hbs
    rw [selFields, htext, hstrip, tokens_append_sep (filterBlank_space (hbs b (by simp))),
      tokens_word (by simp) hc, tokens_append_left hspaces]
    rfl
  rw [hfirst]
  cases hlast : rest.takeWhile (· ≠ '#') with
  | nil => exact ⟨[], by rw [List.append_nil, tokens_word hfits fun x hx => (hfield x hx).1]⟩
  | cons x u =>
    have hx : percentClass 's' x = true := by
      have := hrest x u hlast
      simpa [percentClass_S] using this
    exact ⟨tokens (percentClass 's') u,
      by rw [tokens_append_sep hx, tokens_word hfits fun x hx => (hfield x hx).1]; rfl⟩

/-- With a tab behind the action the words behind it are read instead. -/
theorem strMatch_tab (haction : filterAction c = true) (hbs : ∀ b ∈ bs, filterBlank b = true)
    (htab : '\t' ∈ bs) :
    strMatch (strip (c :: (bs ++ d :: s))) "(%S+) +(%S+)".toList =
    strMatch (strip (d :: s)) "(%S+) +(%S+)".toList := by
  have hsearch : searchFrom wordsItems (c :: (bs ++ strip (d :: s))) =
    searchFrom wordsItems (strip (d :: s)) := by
    rw [searchFrom, doMatch_tab (List.ne_nil_of_mem htab) hbs htab]
    exact searchFrom_blanks (fun b hb => filterBlank_space (hbs b hb)) _
  rw [strip_rule haction hbs, strMatch, strMatch, compile_words, Option.bind_some, Option.bind_some, search,
    search, if_neg (by simp), if_neg (by simp), hsearch]

end Fields

/-- The line that the captures of the pattern stand for. -/
def selCaptures : Option (List Str) → SelLine
  | some [action, pattern] => selAction action pattern
  | _ => .other

theorem selLine_eq (line : Str) :
    selLine line = selCaptures (strMatch (strip line) "(%S+) +(%S+)".toList) := rfl

theorem selCaptures_rule {found : Option (List Str)} {r : Rule} (h : selCaptures found = .rule r) :
    ∃ action pattern, found = some [action, pattern] ∧ selAction action pattern = .rule r := by
  unfold selCaptures at h
  split at h
  next action pattern => exact ⟨action, pattern, rfl, h⟩
  next => cases h

theorem tokens_eq_nil {sep : Char → Bool} {t : Str} (h : tokens sep t = []) : ∀ c ∈ t, sep c = true := by
  have hview := tokens_view sep t
  rw [h] at hview
  cases hview with
  | blank hall => exact hall

/-- A text without a word is no rule. -/
theorem selLine_blank {line : Str} (h : selFields line = []) : selLine line = .other := by
  have hsearch := searchFrom_blanks (tokens_eq_nil h) []
  rw [List.append_nil] at hsearch
  have hnone : strMatch (strip line) "(%S+) +(%S+)".toList = none := by
    rw [strMatch, compile_words, Option.bind_some, search, if_neg (by simp), hsearch]
    rfl
  rw [selLine_eq, hnone]
  rfl

theorem selFields_accepted {line : Str} (h : filterAccepts line = true) : selFields line ≠ [] := by
  obtain ⟨c, bs, d, s, rfl, haction, hne, hbs, hname⟩ := (filterAccepts_iff line).mp h
  intro hnil
  have hspace := tokens_eq_nil hnil c (by rw [strip_rule haction hbs]; simp)
  rw [(filterAction_word haction).1] at hspace
  cases hspace

/-- The filter and the parser agree exactly on blank lines and on rules whose blanks are spaces,
but for lines that repeat their first words. -/
theorem selAgrees_iff (line : Str) : SelAgrees line ↔ selFields line = [] ∨ RuleLine line := by
  constructor
  · rintro ⟨haccepted, happlied, hreported⟩
    by_cases hblank : selFields line = []
    · exact .inl hblank
    right
    -- nothing is ever reported, so the line is a rule
    have hrule : ∃ r, selLine line = .rule r := by
      by_contra hnone
      exact hreported hnone hblank (selPrinted_eq_nil line)
    obtain ⟨c, bs, d, s, rfl, haction, hne, hbs, hname⟩ := (filterAccepts_iff line).mp (haccepted.mpr hrule)
    by_cases htab : '\t' ∈ bs
    · obtain ⟨c', s', field, hline, hfield, hsel⟩ := happlied hrule
      obtain ⟨rfl, _⟩ := List.cons.inj hline
      obtain ⟨r, hr⟩ := hrule
      obtain ⟨action, pattern, hmatch, hwords⟩ := selCaptures_rule ((selLine_eq _).symm.trans hr)
      rw [strMatch_tab haction hbs htab] at hmatch
      have hpattern : pattern = field :=
        (selAction_pattern hwords).symm.trans (selAction_pattern (hsel.symm.trans hr))
      subst hpattern
      exact .repeated c d bs s rfl haction hbs htab hname action pattern hfield hmatch
        (hwords.trans (hr.symm.trans hsel))
    · refine .spaces c d bs s rfl haction hne (fun b hb => ?_) hname
      have hcases : b = ' ' ∨ b = '\t' := by simpa [filterBlank] using hbs b hb
      exact hcases.resolve_right fun h => htab (h ▸ hb)
  · rintro (hblank | ⟨c, d, bs, s, rfl, haction, hne, hspaces, hname⟩ |
      ⟨c, d, bs, s, rfl, haction, hbs, htab, hname, action, field, hfield, hmatch, hsame⟩)
    · have hother := selLine_blank hblank
      have hnone : ¬∃ r, selLine line = .rule r := by simp [hother]
      exact ⟨iff_of_false (fun h => selFields_accepted h hblank) hnone, fun h => absurd h hnone,
        fun _ h => absurd hblank h⟩
    · have hbs : ∀ b ∈ bs, filterBlank b = true := by
        intro b hb
        rw [hspaces b hb]
        rfl
      obtain ⟨field, rest, ht, hfield, hrest⟩ := strip_field (d :: s)
      have hd := filterName_word hname
      have hfits : field ≠ [] := by
        rintro rfl
        rw [List.nil_append] at ht
        rw [← ht, List.takeWhile_cons_of_pos (by simpa using hd.2)] at hrest
        have := hrest d _ rfl
        rw [percentClass_S, hd.1] at this
        cases this
      obtain ⟨fields, hfields⟩ := selFields_rule haction hne hbs ht hfield hfits hrest
      have hsel : selLine (c :: (bs ++ d :: s)) = selAction [c] field := by
        have hword {w : Str} (hne : w ≠ []) (hw : ∀ x ∈ w, percentClass 's' x = false ∧ x ≠ '#') :
          SelWord w :=
          ⟨hne, fun x hx => ⟨by rw [percentClass_S, (hw x hx).1]; rfl, (hw x hx).2⟩⟩
        have hc : ∀ x ∈ [c], percentClass 's' x = false ∧ x ≠ '#' := by
          intro x hx
          rw [List.mem_singleton.mp hx]
          exact filterAction_word haction
        rw [ht]
        exact selLine_words (hword (by simp) hc) ⟨hne, hspaces⟩ (hword hfits hfield) hrest
      have hrule : ∃ r, selLine (c :: (bs ++ d :: s)) = .rule r := by
        rw [hsel]
        exact selAction_filter haction field
      exact ⟨iff_of_true ((filterAccepts_iff _).mpr ⟨c, bs, d, s, rfl, haction, hne, hbs, hname⟩) hrule,
        fun _ => ⟨c, _, field, rfl, by rw [hfields]; rfl, hsel⟩, fun h => absurd hrule h⟩
    · have hsel : selLine (c :: (bs ++ d :: s)) = selAction [c] field := by
        rw [selLine_eq, strMatch_tab haction hbs htab, hmatch]
        exact hsame
      have hrule : ∃ r, selLine (c :: (bs ++ d :: s)) = .rule r := by
        rw [hsel]
        exact selAction_filter haction field
      exact ⟨iff_of_true ((filterAccepts_iff _).mpr ⟨c, bs, d, s, rfl, haction, List.ne_nil_of_mem htab,
        hbs, hname⟩) hrule,
        fun _ => ⟨c, _, field, rfl, hfield, hsel⟩, fun h => absurd hrule h⟩

theorem tab_rule : filterAccepts "X\tpython".toList = true ∧ selLine "X\tpython".toList = .other ∧
    selPrinted "X\tpython".toList = [] := by
  decide +kernel

theorem indented_rule : filterAccepts " X python".toList = false ∧
    selLine " X python".toList = .rule ⟨.set (.selected .on), "python".toList⟩ := by
  decide +kernel

/-- With a tab behind the action the filter lets the line pass, and the parser skips it without a
word; an indented rule the filter rejects and the parser applies. -/
theorem filter_disagrees : ¬SelAgrees "X\tpython".toList ∧ ¬SelAgrees " X python".toList := by
  constructor
  · intro h
    obtain ⟨r, hr⟩ := h.accepted.mp tab_rule.1
    rw [tab_rule.2.1] at hr
    cases hr
  · intro h
    have haccepted := h.accepted.mpr ⟨_, indented_rule.2⟩
    rw [indented_rule.1] at haccepted
    cases haccepted

end T2SDE
