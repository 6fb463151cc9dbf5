import T2SDE.HookAdd

namespace T2SDE.Rocknet

open Text StableSort ShellHooks

section Functions

inductive Mode
  | up
  | down
  deriving DecidableEq

def Mode.text : Mode → Str
  | .up => ['u', 'p']
  | .down => ['d', 'o', 'w', 'n']

/-- A call of `addcode`, with the value of `ignore` at that time. -/
structure Call where
  mode : Str
  major : Int
  minor : Int
  code : Str
  ignore : Nat

structure Snipplets where
  idx : List Str
  dat : Nat → Str
  counter : Nat

def empty : Snipplets := ⟨[], fun _ => [], 0⟩

/-- `$((5000$udo$n))` -/
def biased : Mode → Int → Int
  | .up, n => 5000 + n
  | .down, n => 5000 - n

/-- `printf '%04d'` -/
def padded (n : Int) : Str :=
  let number := digits n.natAbs
  if n < 0 then '-' :: (List.replicate (3 - number.length) '0' ++ number)
  else List.replicate (4 - number.length) '0' ++ number

/-- `printf '%04d.%04d.%04d'` -/
def numbers (mode : Mode) (major : Int) (lineno : Nat) (minor : Int) : Str :=
  padded (biased mode major) ++ '.' :: (padded (biased mode lineno) ++ '.' :: padded (biased mode minor))

def addcode (mode : Mode) (lineno : Nat) (s : Snipplets) (c : Call) : Snipplets :=
  if c.mode ≠ mode.text then s
  else if c.ignore > 0 then s
  else {
    idx := s.idx ++ [numbers mode c.major lineno c.minor ++ ' ' :: digits s.counter]
    dat := Function.update s.dat s.counter c.code
    counter := s.counter + 1 }

/-- The loop over the statements of the configuration, each with the calls that it causes. -/
def readConfig (mode : Mode) : Nat → List (List Call) → Snipplets → Snipplets
  | _, [], s => s
  | lineno, calls :: config, s =>
    readConfig mode (lineno + 1) config (calls.foldl (addcode mode (lineno + 1)) s)

/-- The loop over the sorted index: the numbers of the snippets that it executes, with their texts. -/
def execute (s : Snipplets) : List (Nat × Str) :=
  ((fileLines (s.idx.flatMap echo)).insertionSort LineLe).map fun line =>
    let id2 := Nat.ofDigitChars 10 (ShellHooks.readLine line).2 0
    (id2, s.dat id2)

def rocknet (mode : Mode) (config : List (List Call)) : List (Nat × Str) :=
  execute (readConfig mode 0 config empty)

end Functions

section Order

/-- A snippet that has been added, with the line of its statement and its number. -/
structure Snipplet where
  call : Call
  lineno : Nat
  number : Nat

/-- The calls that add code, with their lines. -/
def taken (mode : Mode) : Nat → List (List Call) → List (Call × Nat)
  | _, [] => []
  | lineno, calls :: config =>
    ((calls.filter fun c => c.mode = mode.text ∧ c.ignore = 0).map fun c => (c, lineno + 1)) ++
      taken mode (lineno + 1) config

def added (mode : Mode) (config : List (List Call)) : List Snipplet :=
  (taken mode 0 config).mapIdx fun number c => ⟨c.1, c.2, number⟩

/-- The order of major priority, line and minor priority. -/
def PriLt (e f : Snipplet) : Prop :=
  e.call.major < f.call.major ∨ e.call.major = f.call.major ∧
    (e.lineno < f.lineno ∨ e.lineno = f.lineno ∧ e.call.minor < f.call.minor)

def SamePri (e f : Snipplet) : Prop :=
  e.call.major = f.call.major ∧ e.lineno = f.lineno ∧ e.call.minor = f.call.minor

/-- What is asked of two snippets where the first is executed in front of the second. -/
def Rank : Mode → Snipplet → Snipplet → Prop
  | .up, e, f => PriLt e f ∨ SamePri e f ∧ e.number < f.number
  | .down, e, f => ¬PriLt e f

instance (mode : Mode) : DecidableRel (Rank mode) := fun _ _ =>
  match mode with
  | .up => inferInstanceAs (Decidable ((_ ∨ _ ∧ (_ ∨ _ ∧ _)) ∨ (_ ∧ _ ∧ _) ∧ _))
  | .down => inferInstanceAs (Decidable ¬(_ ∨ _ ∧ (_ ∨ _ ∧ _)))

/-- The snippets are executed once each, in the order of the mode. -/
def InOrder (mode : Mode) (config : List (List Call)) : Prop :=
  ∃ order : List Snipplet, order.Perm (added mode config) ∧ order.Pairwise (Rank mode) ∧
    rocknet mode config = order.map fun e => (e.number, e.call.code)

/-- The first of the snippets has to be executed in front of the second, by their numbers. -/
def Earlier : Mode → Snipplet → Snipplet → Prop
  | .up, e, f => PriLt e f
  | .down, e, f => PriLt f e

def printed (mode : Mode) (e : Snipplet) : Str := numbers mode e.call.major e.lineno e.call.minor

/-- The numbers, as they are printed, are in the order of the mode as texts. -/
def NumbersFit (mode : Mode) (config : List (List Call)) : Prop :=
  ∀ e ∈ added mode config, ∀ f ∈ added mode config, Earlier mode e f →
    textLe (printed mode e) (printed mode f) = true

/-- The counters of snippets with the same priorities and line are in order as texts. -/
def TiesFit (config : List (List Call)) : Prop :=
  ∀ e ∈ added .up config, ∀ f ∈ added .up config, SamePri e f → e.number < f.number →
    textLe (digits e.number) (digits f.number) = true

def line (mode : Mode) (e : Snipplet) : Str := printed mode e ++ ' ' :: digits e.number

/-- The order of the lines in the index. -/
def TextOrder (mode : Mode) (e f : Snipplet) : Prop := LineLe (line mode e) (line mode f)

instance (mode : Mode) : DecidableRel (TextOrder mode) :=
  fun e f => inferInstanceAs (Decidable (LineLe (line mode e) (line mode f)))

instance (mode : Mode) : Std.Total (TextOrder mode) := ⟨fun e f => textLe_total (line mode e) (line mode f)⟩

instance (mode : Mode) : IsTrans Snipplet (TextOrder mode) := ⟨fun _ _ _ => textLe_trans⟩

end Order

section Numbers

variable {mode : Mode} {e f : Snipplet} {m n : Int}

theorem zeros_value (k n : Nat) : Nat.ofDigitChars 10 (List.replicate k '0' ++ digits n) 0 = n := by
  rw [Nat.ofDigitChars_append, Nat.ofDigitChars_replicate_zero, Nat.mul_zero, digits_value]

theorem zeros_digit {k n : Nat} {c : Char} (h : c ∈ List.replicate k '0' ++ digits n) : c.isDigit = true := by
  rcases List.mem_append.mp h with h | h
  · rw [List.eq_of_mem_replicate h]
    rfl
  · exact digit_of_mem h

theorem mem_padded {c : Char} (h : c ∈ padded n) : c = '-' ∨ c.isDigit = true := by
  unfold padded at h
  split at h
  · exact (List.mem_cons.mp h).imp_right zeros_digit
  · exact .inr (zeros_digit h)

theorem padded_of_neg (h : n < 0) :
    padded n = '-' :: (List.replicate (3 - (digits n.natAbs).length) '0' ++ digits n.natAbs) := if_pos h

theorem padded_of_nonneg (h : 0 ≤ n) :
    padded n = List.replicate (4 - (digits n.natAbs).length) '0' ++ digits n.natAbs :=
  if_neg (Int.not_lt.mpr h)

theorem head_padded (h : 0 ≤ n) : '-' ∉ padded n := by
  intro hmem
  rw [padded_of_nonneg h] at hmem
  exact absurd (zeros_digit hmem) (by decide)

theorem padded_inj (h : padded m = padded n) : m = n := by
  have hneg : ∀ k : Int, k < 0 → '-' ∈ padded k := fun k hk => padded_of_neg hk ▸ List.mem_cons_self
  rcases Int.lt_or_le m 0 with hm | hm
  · rcases Int.lt_or_le n 0 with hn | hn
    · rw [padded_of_neg hm, padded_of_neg hn] at h
      have hval := congrArg (Nat.ofDigitChars 10 · 0) (List.cons.inj h).2
      simp only [zeros_value] at hval
      omega
    · exact absurd (h ▸ hneg m hm) (head_padded hn)
  · rcases Int.lt_or_le n 0 with hn | hn
    · exact absurd (h ▸ hneg n hn) (head_padded hm)
    · rw [padded_of_nonneg hm, padded_of_nonneg hn] at h
      have hval := congrArg (Nat.ofDigitChars 10 · 0) h
      simp only [zeros_value] at hval
      omega

theorem dot_padded (n : Int) : '.' ∉ padded n := by
  intro h
  rcases mem_padded h with h | h
  · exact absurd h (by decide)
  · exact absurd h (by decide)

theorem biased_inj (h : biased mode m = biased mode n) : m = n := by
  cases mode with
  | up => exact Int.add_left_cancel h
  | down => simp only [biased] at h; omega

/-- Numbers that are printed the same are the same. -/
theorem printed_eq_iff : printed mode e = printed mode f ↔ SamePri e f := by
  constructor
  · intro h
    obtain ⟨hmajor, hrest⟩ := eq_of_append_sep (dot_padded _) (dot_padded _) h
    obtain ⟨hline, hminor⟩ := eq_of_append_sep (dot_padded _) (dot_padded _) hrest
    exact ⟨biased_inj (padded_inj hmajor), Int.ofNat.inj (biased_inj (padded_inj hline)),
      biased_inj (padded_inj hminor)⟩
  · rintro ⟨hmajor, hline, hminor⟩
    rw [printed, printed, hmajor, hline, hminor]

theorem blank_lt_digit {c : Char} (h : c.isDigit = true) : ' '.toNat < c.toNat :=
  Nat.lt_of_lt_of_le (by decide) (Char.isDigit_iff_toNat.mp h).1

theorem blank_lt_printed {c : Char} (h : c ∈ printed mode e) : ' '.toNat < c.toNat := by
  have hpadded : ∀ n : Int, c ∈ padded n → ' '.toNat < c.toNat := by
    intro n h
    rcases mem_padded h with rfl | h
    · decide
    · exact blank_lt_digit h
  rcases List.mem_append.mp h with h | h
  · exact hpadded _ h
  · rcases List.mem_cons.mp h with rfl | h
    · decide
    · rcases List.mem_append.mp h with h | h
      · exact hpadded _ h
      · rcases List.mem_cons.mp h with rfl | h
        · decide
        · exact hpadded _ h

/-- Lines are in order by their numbers as they are printed, and where these are the same by their counters as
texts. -/
theorem textOrder_iff : TextOrder mode e f ↔ ¬SamePri e f ∧ textLe (printed mode e) (printed mode f) = true ∨
    SamePri e f ∧ textLe (digits e.number) (digits f.number) = true := by
  rw [TextOrder, LineLe, line, line]
  by_cases hsame : SamePri e f
  · rw [printed_eq_iff.mpr hsame, textLe_append_left, textLe]
    simp [hsame]
  · have hne : printed mode e ≠ printed mode f := fun h => hsame (printed_eq_iff.mp h)
    rw [textLe_sep (fun _ => blank_lt_printed) (fun _ => blank_lt_printed) hne]
    simp [hsame]

theorem line_inj (h : line mode e = line mode f) : e.number = f.number := by
  have hblank : ∀ g : Snipplet, ' ' ∉ digits g.number := fun g hmem => absurd (digit_of_mem hmem) (by decide)
  exact digits_inj (eq_of_suffix_sep (hblank e) (hblank f)
    (h ▸ List.suffix_rfl : line mode e <:+ line mode f))

end Numbers

section Runs

variable {mode : Mode} {config : List (List Call)} {e f : Snipplet}

/-- What `addcode` does with a call that it takes. -/
def push (mode : Mode) (s : Snipplets) (c : Call × Nat) : Snipplets where
  idx := s.idx ++ [numbers mode c.1.major c.2 c.1.minor ++ ' ' :: digits s.counter]
  dat := Function.update s.dat s.counter c.1.code
  counter := s.counter + 1

theorem foldl_addcode (mode : Mode) (lineno : Nat) (calls : List Call) (s : Snipplets) :
    calls.foldl (addcode mode lineno) s =
      ((calls.filter fun c => c.mode = mode.text ∧ c.ignore = 0).map fun c =>
      (c, lineno)).foldl (push mode) s := by
  induction calls generalizing s with
  | nil => rfl
  | cons c calls ih =>
    rw [List.foldl_cons, ih]
    by_cases hmode : c.mode = mode.text
    · rcases Nat.eq_zero_or_pos c.ignore with hignore | hignore
      · have hadd : addcode mode lineno s c = push mode s (c, lineno) := by
          rw [addcode, if_neg (not_not.mpr hmode), if_neg (by omega), push]
        rw [List.filter_cons_of_pos (by simp [hmode, hignore]), List.map_cons, List.foldl_cons, hadd]
      · have hadd : addcode mode lineno s c = s := by
          rw [addcode, if_neg (not_not.mpr hmode), if_pos hignore]
        rw [List.filter_cons_of_neg (by simp [Nat.ne_of_gt hignore]), hadd]
    · have hadd : addcode mode lineno s c = s := by rw [addcode, if_pos hmode]
      rw [List.filter_cons_of_neg (by simp [hmode]), hadd]

theorem readConfig_eq (mode : Mode) (lineno : Nat) (config : List (List Call)) (s : Snipplets) :
    readConfig mode lineno config s = (taken mode lineno config).foldl (push mode) s := by
  induction config generalizing lineno s with
  | nil => rfl
  | cons calls config ih => rw [readConfig, ih, taken, List.foldl_append, foldl_addcode]

/-- What the calls leave in the two arrays. -/
theorem foldl_push (mode : Mode) (calls : List (Call × Nat)) :
    let snipplets := calls.mapIdx fun number c => (⟨c.1, c.2, number⟩ : Snipplet)
    (calls.foldl (push mode) empty).counter = calls.length ∧
    (calls.foldl (push mode) empty).idx = snipplets.map (line mode) ∧
    ∀ e ∈ snipplets, (calls.foldl (push mode) empty).dat e.number = e.call.code := by
  intro snipplets
  induction calls using List.reverseRecOn with
  | nil => exact ⟨rfl, rfl, by simp [snipplets]⟩
  | append_singleton calls c ih =>
    obtain ⟨hcount, hidx, hdat⟩ := ih
    rw [List.foldl_append, List.foldl_cons, List.foldl_nil]
    refine ⟨by simp [push, hcount], ?_, fun e he => ?_⟩
    · simp [snipplets, push, hcount, hidx, line, printed]
    · rw [push, hcount]
      simp only [snipplets, List.mapIdx_concat, List.mem_append, List.mem_singleton] at he
      rcases he with he | rfl
      · have hlt : e.number < calls.length := by
          obtain ⟨i, hi, rfl⟩ := List.mem_mapIdx.mp he
          exact hi
        exact (Function.update_of_ne (Nat.ne_of_lt hlt) _ _).trans (hdat e he)
      · exact Function.update_self ..

theorem eq_of_number (he : e ∈ added mode config) (hf : f ∈ added mode config) (h : e.number = f.number) :
    e = f := by
  obtain ⟨i, hi, rfl⟩ := List.mem_mapIdx.mp he
  obtain ⟨j, hj, rfl⟩ := List.mem_mapIdx.mp hf
  obtain rfl : i = j := h
  rfl

theorem nodup_added (mode : Mode) (config : List (List Call)) : (added mode config).Nodup := by
  refine List.nodup_iff_injective_getElem.mpr fun i j h => ?_
  simp only [added, List.getElem_mapIdx, Snipplet.mk.injEq] at h
  exact Fin.ext h.2.2

theorem line_free (mode : Mode) (e : Snipplet) : '\n' ∉ line mode e := by
  intro h
  rcases List.mem_append.mp h with h | h
  · exact absurd (blank_lt_printed h) (by decide)
  · rcases List.mem_cons.mp h with h | h
    · exact absurd h (by decide)
    · exact absurd (digit_of_mem h) (by decide)

theorem echo_line (mode : Mode) (e : Snipplet) : echo (line mode e) = line mode e ++ ['\n'] := by
  have hoption : isEchoOption (line mode e) = false := by
    by_contra h
    rw [Bool.not_eq_false] at h
    have hblank : ' ' ∈ line mode e := List.mem_append_right _ List.mem_cons_self
    unfold isEchoOption at h
    split at h
    · next letters heq =>
      rw [heq] at hblank
      rcases List.mem_cons.mp hblank with hblank | hblank
      · exact absurd hblank (by decide)
      · have hletter := List.all_eq_true.mp (Bool.and_eq_true_iff.mp h).2 ' ' hblank
        exact absurd hletter (by decide)
    · cases h
  rw [echo, hoption, if_neg Bool.false_ne_true]

theorem readLine_line (mode : Mode) (e : Snipplet) :
    ShellHooks.readLine (line mode e) = (printed mode e, digits e.number) := by
  have hprinted : ∀ c ∈ printed mode e, Awk.blank c = false := by
    intro c hc
    have hlt := blank_lt_printed hc
    rw [Awk.blank]
    by_contra hblank
    simp only [Bool.not_eq_false, Bool.or_eq_true, beq_iff_eq] at hblank
    rcases hblank with (rfl | rfl) | rfl <;> exact absurd hlt (by decide)
  have hne : printed mode e ≠ [] := by
    intro h
    rw [printed, numbers] at h
    exact absurd h (by simp)
  have htok : tokens Awk.blank (line mode e) = [printed mode e, digits e.number] := by
    rw [line, tokens_append_sep (by decide), tokens_word hne hprinted,
      tokens_word (digits_ne_nil _) fun c => blank_digits]
    rfl
  rw [ShellHooks.readLine, htok]
  simp [List.intercalate]

/-- The snippets are executed in the order of their lines as texts. -/
theorem rocknet_eq (mode : Mode) (config : List (List Call)) :
    rocknet mode config =
      ((added mode config).insertionSort (TextOrder mode)).map fun e => (e.number, e.call.code) := by
  obtain ⟨-, hidx, hdat⟩ := foldl_push mode (taken mode 0 config)
  have hsort : ((added mode config).map (line mode)).insertionSort LineLe =
      ((added mode config).insertionSort (TextOrder mode)).map (line mode) :=
    (List.map_insertionSort (TextOrder mode) LineLe (line mode) _ fun _ _ _ _ => Iff.rfl).symm
  have hecho : ((added mode config).map (line mode)).flatMap echo =
      (added mode config).flatMap fun e => line mode e ++ ['\n'] := by
    rw [List.flatMap_map]
    exact List.flatMap_congr fun e _ => echo_line mode e
  rw [rocknet, readConfig_eq, execute, hidx]
  change List.map _
    ((fileLines (((added mode config).map (line mode)).flatMap echo)).insertionSort LineLe) = _
  rw [hecho, fileLines_flatMap _ fun e _ => line_free mode e, hsort, List.map_map]
  refine List.map_congr_left fun e he => ?_
  have hcode := hdat e ((List.mem_insertionSort (TextOrder mode)).mp he)
  simp only [Function.comp_apply, readLine_line, digits_value, hcode]

theorem inOrder_iff_pairwise (mode : Mode) (config : List (List Call)) :
    InOrder mode config ↔ ((added mode config).insertionSort (TextOrder mode)).Pairwise (Rank mode) := by
  constructor
  · rintro ⟨order, hperm, hpair, hrun⟩
    have hsame : (added mode config).insertionSort (TextOrder mode) = order := by
      refine eq_of_map_eq (fun e he f hf hef => ?_) ((rocknet_eq mode config).symm.trans hrun)
      exact eq_of_number ((List.mem_insertionSort _).mp he) (hperm.mem_iff.mp hf) (Prod.mk.inj hef).1
    exact hsame ▸ hpair
  · intro hpair
    exact ⟨_, List.perm_insertionSort _ _, hpair, rocknet_eq mode config⟩

theorem priLt_asymm (h : PriLt e f) : ¬PriLt f e ∧ ¬SamePri e f ∧ ¬SamePri f e := by
  unfold PriLt SamePri at *
  omega

/-- Just the snippets that have to be executed first are asked to stand in front. -/
theorem not_rank_iff (hne : e.number ≠ f.number) :
    ¬Rank mode f e ↔ Earlier mode e f ∨ mode = .up ∧ SamePri e f ∧ e.number < f.number := by
  unfold Rank Earlier PriLt SamePri
  cases mode with
  | up => simp only [true_and]; omega
  | down => simp only [reduceCtorEq, false_and, or_false, not_not]

/-- The snippets are executed in order just if the numbers are printed in the order of texts, and at `up` the
counters of ties too. -/
theorem calls_inOrder_iff (mode : Mode) (config : List (List Call)) :
    InOrder mode config ↔ NumbersFit mode config ∧ (mode = .up → TiesFit config) := by
  have hanti : ∀ e f, e ∈ added mode config → f ∈ added mode config → TextOrder mode e f →
      TextOrder mode f e → e = f :=
    fun e f he hf hef hfe => eq_of_number he hf (line_inj (textLe_antisymm hef hfe))
  rw [inOrder_iff_pairwise, pairwise_insertionSort_iff hanti (nodup_added mode config)]
  have hdiff : ∀ {e f : Snipplet}, Earlier mode e f → ¬SamePri e f := by
    intro e f h
    cases mode with
    | up => exact (priLt_asymm h).2.1
    | down => exact (priLt_asymm h).2.2
  constructor
  · intro h
    refine ⟨fun e he f hf hearlier => ?_, ?_⟩
    · have hne : e ≠ f := fun heq => hdiff hearlier (heq ▸ ⟨rfl, rfl, rfl⟩)
      have hnumber : e.number ≠ f.number := fun heq => hne (eq_of_number he hf heq)
      have htext := h e he f hf hne ((not_rank_iff hnumber).mpr (.inl hearlier))
      rcases textOrder_iff.mp htext with ⟨-, hle⟩ | ⟨hsame, -⟩
      · exact hle
      · exact absurd hsame (hdiff hearlier)
    · rintro rfl e he f hf hsame hlt
      have hne : e ≠ f := fun heq => Nat.lt_irrefl _ (heq ▸ hlt)
      have htext := h e he f hf hne ((not_rank_iff (Nat.ne_of_lt hlt)).mpr (.inr ⟨rfl, hsame, hlt⟩))
      rcases textOrder_iff.mp htext with ⟨hnot, -⟩ | ⟨-, hle⟩
      · exact absurd hsame hnot
      · exact hle
  · rintro ⟨hnumbers, hties⟩ e he f hf hne hrank
    have hnumber : e.number ≠ f.number := fun heq => hne (eq_of_number he hf heq)
    rcases (not_rank_iff hnumber).mp hrank with hearlier | ⟨rfl, hsame, hlt⟩
    · exact textOrder_iff.mpr (.inl ⟨hdiff hearlier, hnumbers e he f hf hearlier⟩)
    · exact textOrder_iff.mpr (.inr ⟨hsame, hties rfl e he f hf hsame hlt⟩)

/-- A statement with eleven calls of the same priorities: the snippet of the last one is executed in
front of that of the third. -/
theorem eleventh_early : ¬∀ (mode : Mode) (config : List (List Call)), InOrder mode config := by
  intro h
  have hpair := h .up [(List.range 11).map fun i => ⟨['u', 'p'], 4, 4, digits i, 0⟩]
  rw [inOrder_iff_pairwise] at hpair
  exact absurd hpair (by decide +kernel)

end Runs

section Range

variable {mode : Mode} {config : List (List Call)} {e f : Snipplet} {m n : Int}

/-- The number is printed with four digits. -/
def InRange (mode : Mode) (n : Int) : Prop := 0 ≤ biased mode n ∧ biased mode n ≤ 9999

theorem length_padded (h : 0 ≤ n) (hle : n ≤ 9999) : (padded n).length = 4 := by
  have hdigits : (digits n.natAbs).length ≤ 4 := by
    rw [digits, Nat.length_toDigits_le_iff (by decide) (by decide)]
    omega
  rw [padded_of_nonneg h, List.length_append, List.length_replicate]
  omega

theorem textLe_padded (h : 0 ≤ m) (hlt : m < n) (hle : n ≤ 9999) : textLe (padded m) (padded n) = true := by
  rcases textLe_total (padded m) (padded n) with hmn | hnm
  · exact hmn
  · have hn : 0 ≤ n := by omega
    have hlen : (padded n).length = (padded m).length := by
      rw [length_padded hn hle, length_padded h (by omega)]
    rw [padded_of_nonneg h, padded_of_nonneg hn] at hnm hlen
    have hval := value_le_of_textLe (fun _ => zeros_digit) (fun _ => zeros_digit) hlen (.inr ⟨rfl, hnm⟩)
      (m := 0)
    rw [zeros_value, zeros_value] at hval
    omega

/-- A number in front decides the order, unless it is the same in both texts. -/
theorem textLe_field (hm : 0 ≤ m) (hlt : m < n) (hle : n ≤ 9999) (s t : Str) :
    textLe (padded m ++ s) (padded n ++ t) = true := by
  have hlen : (padded m).length = (padded n).length := by
    rw [length_padded hm (by omega), length_padded (by omega) hle]
  have hne : padded m ≠ padded n := fun h => Int.ne_of_lt hlt (padded_inj h)
  rw [textLe_append hlen hne]
  exact textLe_padded hm hlt hle

theorem earlier_iff : Earlier mode e f ↔
    biased mode e.call.major < biased mode f.call.major ∨
    biased mode e.call.major = biased mode f.call.major ∧
      (biased mode e.lineno < biased mode f.lineno ∨ biased mode e.lineno = biased mode f.lineno ∧
        biased mode e.call.minor < biased mode f.call.minor) := by
  cases mode <;> simp only [Earlier, PriLt, biased] <;> omega

/-- Numbers of four digits each are printed in order. -/
theorem numbersFit_of_inRange (h : ∀ e ∈ added mode config,
    InRange mode e.call.major ∧ InRange mode e.lineno ∧ InRange mode e.call.minor) :
    NumbersFit mode config := by
  intro e he f hf hearlier
  obtain ⟨hmajor, hline, hminor⟩ := h e he
  obtain ⟨hmajor', hline', hminor'⟩ := h f hf
  rw [printed, numbers, printed, numbers]
  rcases earlier_iff.mp hearlier with hlt | ⟨heq, hlt | ⟨heq', hlt⟩⟩
  · exact textLe_field hmajor.1 hlt hmajor'.2 _ _
  · rw [heq, textLe_append_left, textLe]
    simp [textLe_field hline.1 hlt hline'.2]
  · rw [heq, heq', textLe_append_left, textLe, textLe_append_left, textLe]
    simp [textLe_padded hminor.1 hlt hminor'.2]

end Range

end T2SDE.Rocknet
