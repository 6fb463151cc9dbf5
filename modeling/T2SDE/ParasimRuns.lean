import T2SDE.ParasimRounds
import Mathlib.Order.WellFounded

namespace T2SDE.Parasim

open Text Relation

section Progress

variable {c : Setup} {id : Nat} {sim sim' : Sim} {s : Config} {j : Job} {st : Status}

/-- What is left of the loop that the program is in. -/
def Phase.left : Phase → Nat
  | .finishing qids => qids.length
  | .starting queue => queue.length
  | .over => 0

/-- The loops of a round: a job is due, then the queue is read, then no job is due. -/
def turn (s : Config) : Nat :=
  match s.phase with
  | .finishing _ => if ∃ entry ∈ s.sim.jobs, entry.2 ≤ s.sim.now then 0 else 2
  | .starting _ => 1
  | .over => 0

/-- A step finishes a job, goes on to the next loop or shortens the loop. -/
def remaining (c : Setup) (s : Config) : Nat × Nat × Nat :=
  (undoneCount c.tree s.sim.files, turn s, s.phase.left)

def Less : Nat × Nat × Nat → Nat × Nat × Nat → Prop := Prod.Lex (· < ·) (Prod.Lex (· < ·) (· < ·))

theorem wellFounded_less : WellFounded Less :=
  WellFounded.prod_lex Nat.lt_wfRel.wf (WellFounded.prod_lex Nat.lt_wfRel.wf Nat.lt_wfRel.wf)

theorem Has.done (h : Has c sim j st) : c.tree.done sim.files j = decide (st = .done) := by
  rw [BuildTree.done, h.log, h.err, Bool.or_false]

theorem undoneCount_eq (h : ∀ j ∈ c.tree.jobs, c.tree.done sim'.files j = c.tree.done sim.files j) :
    undoneCount c.tree sim'.files = undoneCount c.tree sim.files := by
  rw [undoneCount, undoneCount]
  congr 1
  exact List.filter_congr fun j hj => by rw [h j hj]

theorem Inv.finish_less {job : Str} {qids : List Str} (h : Inv c id ⟨.finishing (job :: qids), sim⟩)
    (hown : OwnOnly c job sim.files) :
    undoneCount c.tree (Parasim.finish c.logdir job sim).files < undoneCount c.tree sim.files := by
  have hkey : job ∈ sim.jobs.map Prod.fst := h.phase.2.1 List.mem_cons_self
  obtain ⟨j, hj, rfl⟩ := h.known job hkey
  obtain ⟨st, hst⟩ := h.status j hj
  have hrun : st = .running := hst.table.mp hkey
  subst hrun
  refine Run.length_filter_lt (fun k hk hundone => ?_) hj (by rw [hst.done]; rfl)
    (by rw [(hst.finish hj).done]; rfl)
  by_cases hkj : k = j
  · rw [hkj, (hst.finish hj).done] at hundone
    exact absurd hundone (by decide)
  · obtain ⟨st', hst'⟩ := h.status k hk
    rw [(hst'.finish_other hj hk hkj hown).done] at hundone
    rwa [hst'.done]

theorem Inv.start_same {line : Str} {queue : List Str} (h : Inv c id ⟨.starting (line :: queue), sim⟩)
    (hown : OwnOnly c ((split line).getD 0 [] ++ "-".toList ++ (split line).getD 5 []) sim.files) :
    undoneCount c.tree (Parasim.start c.logdir line sim).files = undoneCount c.tree sim.files := by
  obtain ⟨-, -, hlines, -⟩ := h.phase
  obtain ⟨j, hj, rfl, hwaits⟩ := hlines line List.mem_cons_self
  rw [(line_read hj).1] at hown
  refine undoneCount_eq fun k hk => ?_
  by_cases hkj : k = j
  · rw [hkj, (hwaits.start hj).done, hwaits.done]
    rfl
  · obtain ⟨st, hst⟩ := h.status k hk
    rw [(hst.start_other hj hk hkj hown).done, hst.done]

theorem advance_spec (c : Setup) (sim : Sim) :
    sim.jobs = [] ∧ c.advance sim = ⟨.over, sim⟩ ∨
      sim.jobs ≠ [] ∧ ∃ qids, ∃ entry ∈ sim.jobs,
      c.advance sim = ⟨.finishing qids, { sim with now := entry.2 }⟩ := by
  rw [Setup.advance]
  rcases earliest_spec sim.jobs with ⟨hnil, hearliest⟩ | ⟨n, hearliest, -, entry, hentry, heq⟩
  · exact .inl ⟨hnil, if_pos hearliest⟩
  · refine .inr ⟨List.ne_nil_of_mem hentry, c.keys sim.log (sim.jobs.map Prod.fst), entry, hentry, ?_⟩
    rw [if_neg (by omega), hearliest, heq]
    rfl

theorem advance_less (c : Setup) (sim : Sim) (queue : List Str) :
    (c.advance sim).phase = .over ∨
    Less (remaining c (c.advance sim)) (remaining c ⟨.starting queue, sim⟩) := by
  rcases advance_spec c sim with ⟨-, hover⟩ | ⟨-, qids, entry, hentry, hnext⟩
  · rw [hover]
    exact .inl rfl
  · rw [hnext]
    right
    have hdue : ∃ due ∈ sim.jobs, due.2 ≤ entry.2 := ⟨entry, hentry, le_refl _⟩
    refine Prod.Lex.right _ (Prod.Lex.left _ _ ?_)
    rw [turn, turn, if_pos hdue]
    exact Nat.one_pos

theorem Inv.step_less (h : Inv c id s) (hclean : Clean c s) :
    s.phase = .over ∨ (c.step s).phase = .over ∨ Less (remaining c (c.step s)) (remaining c s) := by
  obtain ⟨phase, sim⟩ := s
  match phase with
  | .finishing (job :: qids) =>
    right; right
    rw [Setup.step]
    by_cases hdue : (sim.jobs.lookup job).getD 0 > sim.now
    · rw [if_pos hdue]
      exact Prod.Lex.right _ (Prod.Lex.right _ (Nat.lt_succ_self _))
    · rw [if_neg hdue]
      exact Prod.Lex.left _ _
        (h.finish_less (hclean job (by simp only [removes, if_neg hdue, Option.mem_some])))
  | .finishing [] =>
    right; right
    have hnone : ¬∃ entry ∈ sim.jobs, entry.2 ≤ sim.now := by
      rintro ⟨entry, hentry, hle⟩
      exact absurd (h.phase.2.2 entry hentry hle) List.not_mem_nil
    refine Prod.Lex.right _ (Prod.Lex.left _ _ ?_)
    show 1 < turn ⟨.finishing [], sim⟩
    rw [turn, if_neg hnone]
    exact Nat.one_lt_two
  | .starting (line :: queue) =>
    rw [Setup.step]
    by_cases hfree : sim.freejobs > 0
    · rw [if_pos hfree]
      right; right
      have hsame := h.start_same (hclean _ (by simp only [removes, if_pos hfree, Option.mem_some]))
      rw [Less, Prod.lex_def]
      exact .inr ⟨hsame, Prod.Lex.right _ (Nat.lt_succ_self _)⟩
    · rw [if_neg hfree]
      exact .inr (advance_less c sim _)
  | .starting [] => exact .inr (advance_less c sim _)
  | .over => exact .inl rfl

/-- A run that removes no file of another job ends. -/
theorem exists_over (hid : 1 ≤ id) (h : Inv c id s) (hclean : ∀ n, Clean c (c.step^[n] s)) :
    ∃ n, (c.step^[n] s).phase = .over := by
  have progress : ∀ s, (Inv c id s ∧ ∀ n, Clean c (c.step^[n] s)) →
      (s.phase = .over ∨ (c.step s).phase = .over) ∨
        (Inv c id (c.step s) ∧ ∀ n, Clean c (c.step^[n] (c.step s))) ∧
          Less (remaining c (c.step s)) (remaining c s) := by
    rintro s ⟨hinv, hclean⟩
    rcases hinv.step_less (hclean 0) with hover | hover | hless
    · exact .inl (.inl hover)
    · exact .inl (.inr hover)
    · exact .inr ⟨⟨hinv.step hid (hclean 0), fun n => hclean (n + 1)⟩, hless⟩
  obtain ⟨n, hover | hover⟩ := Run.exists_final_iterate wellFounded_less (remaining c) progress ⟨h, hclean⟩
  · exact ⟨n, hover⟩
  · exact ⟨n + 1, by rwa [Function.iterate_succ_apply']⟩

theorem run_inv (hid : 1 ≤ id) (hclean : ∀ n, Clean c (c.step^[n] (initial id))) (n : Nat) :
    Inv c id (c.step^[n] (initial id)) := by
  induction n with
  | zero => exact initial_inv c id
  | succ n ih =>
    rw [Function.iterate_succ_apply']
    exact ih.step hid (hclean n)

/-- Without a running job and with an empty queue all is done. -/
theorem Inv.all_done (h : Inv c id s) (hjobs : s.sim.jobs = []) (hqueue : c.queue s.sim.files = []) :
    ∀ j ∈ c.tree.jobs, Has c s.sim j .done := by
  have hidle : ∀ j ∈ c.tree.jobs, s.sim.files (c.tree.file j "out") = false := by
    intro j hj
    obtain ⟨st, hst⟩ := h.status j hj
    rw [hst.out]
    refine decide_eq_false fun hrun => ?_
    have hkey := hst.table.mpr hrun
    rw [hjobs] at hkey
    exact absurd hkey List.not_mem_nil
  obtain ⟨-, hprogress⟩ := (createPkgQueue_progress (c.tree.env false s.sim.files) rfl).1
    fun j hj _ => (c.tree.env_out hj false s.sim.files).trans (hidle j hj)
  intro j hj
  obtain ⟨st, hst⟩ := h.status j hj
  have hfinished : (c.tree.env false s.sim.files).finished j = true := by
    by_contra hundone
    exact absurd hqueue (hprogress.mp ⟨j, hj, Bool.eq_false_iff.mpr hundone⟩)
  rw [BuildTree.env_finished hj, hst.done] at hfinished
  exact of_decide_eq_true hfinished ▸ hst

end Progress

section Runs

variable {c : Setup} {id : Nat} {sim : Sim} {s : Config} {j k : Job} {files : Files}

/-- The step from one round to the next. -/
def NextRound (s t : Config) : Prop := (∃ queue, s.phase = .starting queue) ∧ ∃ qids,
    t.phase = .finishing qids

/-- What is asked of a state of the simulation and the step that follows. -/
structure Consistent (c : Setup) (id : Nat) (s : Config) : Prop where
  total : s.sim.freejobs + s.sim.runningjobs = id
  running : s.sim.runningjobs = s.sim.jobs.length
  table : (s.sim.jobs.map Prod.fst).Nodup
  atMost : s.sim.jobs.length ≤ id
  once : ∀ j ∈ c.tree.jobs, s.sim.log.count (.created (qid j)) ≤ 1 ∧ s.sim.log.count (.finished (qid j)) ≤ 1
  later : NextRound s (c.step s) → s.sim.now < (c.step s).sim.now
  same : ¬NextRound s (c.step s) → (c.step s).sim.now = s.sim.now
  last : ∀ queue,
    s.phase = .starting queue → ((c.step s).phase = .over ↔ s.sim.jobs = [] ∧ c.queue s.sim.files = [])

/-- The simulation of a build with `id` jobs. -/
structure Simulates (c : Setup) (id : Nat) : Prop where
  always : ∀ n, Consistent c id (c.step^[n] (initial id))
  ends : ∃ n, (c.step^[n] (initial id)).phase = .over ∧ ∀ j ∈ c.tree.jobs,
    (c.step^[n] (initial id)).sim.log.count (.created (qid j)) = 1 ∧
      (c.step^[n] (initial id)).sim.log.count (.finished (qid j)) = 1

theorem Inv.last_advance {queue : List Str} (h : Inv c id ⟨.starting queue, sim⟩)
    (hnothing : sim.jobs = [] → queue = []) :
    (c.advance sim).phase = .over ↔ sim.jobs = [] ∧ c.queue sim.files = [] := by
  obtain ⟨-, -, -, hqueue⟩ := h.phase
  rcases advance_spec c sim with ⟨hnil, hover⟩ | ⟨hne, qids, entry, -, hnext⟩
  · have hempty : (c.queue sim.files).Perm [] := hnothing hnil ▸ (hqueue hnil).symm
    exact iff_of_true (by rw [hover]) ⟨hnil, hempty.eq_nil⟩
  · exact iff_of_false (by rw [hnext]; exact Phase.noConfusion) fun h => hne h.1

theorem Inv.last (hid : 1 ≤ id) (h : Inv c id s) {queue : List Str} (hphase : s.phase = .starting queue) :
    (c.step s).phase = .over ↔ s.sim.jobs = [] ∧ c.queue s.sim.files = [] := by
  obtain ⟨phase, sim⟩ := s
  obtain rfl : phase = .starting queue := hphase
  cases queue with
  | nil => exact h.last_advance fun _ => rfl
  | cons line queue =>
    rw [Setup.step]
    by_cases hfree : sim.freejobs > 0
    · rw [if_pos hfree]
      refine iff_of_false Phase.noConfusion ?_
      rintro ⟨hnil, hempty⟩
      obtain ⟨-, -, -, hqueue⟩ := h.phase
      have hperm := hqueue hnil
      rw [hempty] at hperm
      exact absurd hperm.eq_nil (List.cons_ne_nil line queue)
    · rw [if_neg hfree]
      exact h.last_advance fun hnil => absurd hnil (h.busy hid hfree)

theorem not_starting_finishing {qids : List Str} : ¬∃ queue, Phase.finishing qids = .starting queue := by
  rintro ⟨queue, h⟩
  exact Phase.noConfusion h

theorem not_starting_over : ¬∃ queue, Phase.over = .starting queue := by
  rintro ⟨queue, h⟩
  exact Phase.noConfusion h

theorem not_finishing_starting {queue : List Str} : ¬∃ qids, Phase.starting queue = .finishing qids := by
  rintro ⟨qids, h⟩
  exact Phase.noConfusion h

theorem Inv.clock_advance {queue : List Str} (h : Inv c id ⟨.starting queue, sim⟩) :
    (NextRound ⟨.starting queue, sim⟩ (c.advance sim) → sim.now < (c.advance sim).sim.now) ∧
      (¬NextRound ⟨.starting queue, sim⟩ (c.advance sim) → (c.advance sim).sim.now = sim.now) := by
  obtain ⟨htimes, -⟩ := h.phase
  rcases advance_spec c sim with ⟨-, hover⟩ | ⟨-, qids, entry, hentry, hnext⟩
  · rw [hover]
    exact ⟨fun ⟨_, qids, hqids⟩ => Phase.noConfusion hqids, fun _ => rfl⟩
  · rw [hnext]
    exact ⟨fun _ => htimes entry hentry, fun hnot => absurd ⟨⟨queue, rfl⟩, qids, rfl⟩ hnot⟩

theorem Inv.clock (h : Inv c id s) :
    (NextRound s (c.step s) → s.sim.now < (c.step s).sim.now) ∧
    (¬NextRound s (c.step s) → (c.step s).sim.now = s.sim.now) := by
  have hsame : ∀ t : Config, ¬NextRound s t → t.sim.now = s.sim.now →
      (NextRound s t → s.sim.now < t.sim.now) ∧ (¬NextRound s t → t.sim.now = s.sim.now) :=
    fun t hnot hnow => ⟨fun hnext => absurd hnext hnot, fun _ => hnow⟩
  obtain ⟨phase, sim⟩ := s
  match phase with
  | .finishing (job :: qids) =>
    refine hsame _ (fun hnext => not_starting_finishing hnext.1) ?_
    rw [Setup.step]
    split <;> rfl
  | .finishing [] => exact hsame _ (fun hnext => not_starting_finishing hnext.1) rfl
  | .starting (line :: queue) =>
    rw [Setup.step]
    by_cases hfree : sim.freejobs > 0
    · rw [if_pos hfree]
      exact hsame _ (fun hnext => not_finishing_starting hnext.2) rfl
    · rw [if_neg hfree]
      exact h.clock_advance
  | .starting [] => exact h.clock_advance
  | .over => exact hsame _ (fun hnext => not_starting_over hnext.1) rfl

theorem Inv.consistent (hid : 1 ≤ id) (h : Inv c id s) : Consistent c id s where
  total := h.total
  running := h.running
  table := h.keys
  atMost := by
    have hfree := h.free
    have htotal := h.total
    have hrunning := h.running
    omega
  once := fun j hj => by
    obtain ⟨st, hst⟩ := h.status j hj
    rw [hst.created, hst.finished]
    cases st <;> decide
  later := h.clock.1
  same := h.clock.2
  last := fun _ hphase => h.last hid hphase

/-- No name is another one of the same stage with a dot behind it. -/
def Undotted (c : Setup) : Prop :=
  ∀ j ∈ c.tree.jobs, ∀ k ∈ c.tree.jobs, j.stagelevel = k.stagelevel → ¬(j.package ++ ".".toList) <+: k.package

theorem dotted_of_prefix {p q : Str} {ext : String} (hext : '.' ∉ ext.toList)
    (h : (p ++ ['.']) <+: (q ++ '.' :: ext.toList)) : p = q ∨ (p ++ ['.']) <+: q := by
  rcases List.prefix_or_prefix_of_prefix h (List.prefix_append q _) with hlonger | ⟨rest, hrest⟩
  · exact .inr hlonger
  · rcases List.eq_nil_or_concat rest with rfl | ⟨middle, x, rfl⟩
    · rw [List.append_nil] at hrest
      exact .inr (hrest ▸ List.prefix_rfl)
    · rw [List.concat_eq_append, ← List.append_assoc] at hrest
      obtain ⟨rfl, -⟩ := List.append_inj' hrest rfl
      rw [List.append_assoc, List.prefix_append_right_inj] at h
      cases middle with
      | nil => exact .inl (List.append_nil q)
      | cons y middle =>
        obtain ⟨-, hdot⟩ := List.cons_prefix_cons.mp h
        exact absurd (hdot.subset (List.mem_append_right _ List.mem_cons_self)) hext

theorem ownOnly_of_undotted (h : Undotted c) (hj : j ∈ c.tree.jobs) : OwnOnly c (qid j) files := by
  have hdots : ∀ ext ∈ extensions, '.' ∉ ext.toList := by decide
  have hone : ∀ n < 10, (digits n).length = 1 := by decide
  have hdigits : ∀ m < 10, ∀ n < 10, digits m = digits n → m = n := by decide
  intro k hk hne ext hext hglob
  obtain ⟨hjs, -⟩ := BuildTree.job_named hj
  obtain ⟨hks, -⟩ := BuildTree.job_named hk
  rw [isGlobbed, Bool.and_eq_true, List.isPrefixOf_iff_prefix, file_eq] at hglob
  have hpath : (digits j.stagelevel ++ '-' :: (j.package ++ ['.'])) <+:
      (digits k.stagelevel ++ '-' :: (k.package ++ '.' :: ext.toList)) := by
    have hfront := hglob.1
    simpa [qid] using hfront
  obtain ⟨tail, htail⟩ := hpath
  rw [List.append_assoc] at htail
  obtain ⟨hstage, hname⟩ := List.append_inj htail (by rw [hone _ hjs, hone _ hks])
  have hlevel := hdigits _ hjs _ hks hstage
  rcases dotted_of_prefix (hdots ext hext) ⟨tail, (List.cons.inj hname).2⟩ with heq | hprefixed
  · exact absurd (congrArg qid (BuildTree.job_ext hk hj hlevel.symm heq.symm)) hne
  · exact absurd hprefixed (h j hj k hk hlevel)

theorem Inv.clean_of_undotted (h : Inv c id s) (hnames : Undotted c) : Clean c s := by
  intro job hjob
  obtain ⟨phase, sim⟩ := s
  match phase with
  | .finishing (next :: qids) =>
    simp only [removes] at hjob
    split at hjob
    · exact absurd hjob (by simp)
    · obtain rfl : next = job := Option.some.inj hjob
      obtain ⟨j, hj, rfl⟩ := h.known next (h.phase.2.1 List.mem_cons_self)
      exact ownOnly_of_undotted hnames hj
  | .starting (line :: queue) =>
    simp only [removes] at hjob
    split at hjob
    · obtain ⟨-, -, hlines, -⟩ := h.phase
      obtain ⟨j, hj, rfl, -⟩ := hlines line List.mem_cons_self
      obtain rfl := Option.some.inj hjob
      rw [(line_read hj).1]
      exact ownOnly_of_undotted hnames hj
    · exact absurd hjob (by simp)
  | .finishing [] => exact absurd hjob (by simp [removes])
  | .starting [] => exact absurd hjob (by simp [removes])
  | .over => exact absurd hjob (by simp [removes])

theorem run_inv_of_undotted (hid : 1 ≤ id) (hnames : Undotted c) (n : Nat) :
    Inv c id (c.step^[n] (initial id)) := by
  induction n with
  | zero => exact initial_inv c id
  | succ n ih =>
    rw [Function.iterate_succ_apply']
    exact ih.step hid (ih.clean_of_undotted hnames)

/-- Only a name with a dot can bring the files of two jobs together. -/
theorem clean_of_undotted (hid : 1 ≤ id) (hnames : Undotted c) (n : Nat) :
    Clean c (c.step^[n] (initial id)) :=
  (run_inv_of_undotted hid hnames n).clean_of_undotted hnames

/-- The simulation is as it should be where `rm -f` never removes a file of another job. -/
theorem simulates_of_clean (c : Setup) {id : Nat} (hid : 1 ≤ id)
    (hclean : ∀ n, Clean c (c.step^[n] (initial id))) :
    Simulates c id := by
  refine ⟨fun n => (run_inv hid hclean n).consistent hid, ?_⟩
  obtain ⟨n, hover⟩ := exists_over hid (initial_inv c id) hclean
  have hinv := run_inv hid hclean n
  have hphase := hinv.phase
  rw [InPhase, hover] at hphase
  refine ⟨n, hover, fun j hj => ?_⟩
  have hdone := hinv.all_done hphase.1 hphase.2 j hj
  exact ⟨hdone.created, hdone.finished⟩

end Runs

section Samples

theorem stageOne_ok : "-1".toList ≠ [] ∧ ∀ c ∈ "-1".toList, stageChar c = true :=
  ⟨by decide, List.all_eq_true.mp (by decide)⟩

theorem sampleLogdir_plain : '<' ∉ "sim/logs_1".toList := by decide

theorem gcc_plain : Plain "gcc".toList := by decide

theorem gccDoc_plain : Plain "gcc.doc".toList := by decide

theorem sed_plain : Plain "sed".toList := by decide

/-- A line of the packages list for stage 1 only. -/
def sampleLine (name : Str) (h : Plain name) : PkgLine :=
  { gccLine with stages := "-1".toList, stages_ok := stageOne_ok, name := name, name_ok := h }

def sampleSetup (lines : List PkgLine) (h : (lines.map PkgLine.name).Nodup ∧ ∀ l ∈ lines,
    PackageName l.name) : Setup where
  logdir := "sim/logs_1".toList
  logdir_plain := sampleLogdir_plain
  lines := lines
  distinct := h.1
  named := h.2
  keys := fun _ l => l
  keys_perm := fun _ l => List.Perm.refl l
  sort := fun l => l
  sort_perm := List.Perm.refl

def buildLines : List PkgLine := [sampleLine "gcc".toList gcc_plain, sampleLine "sed".toList sed_plain]

theorem buildLines_ok : (buildLines.map PkgLine.name).Nodup ∧ ∀ l ∈ buildLines, PackageName l.name := by
    decide

def sampleBuild : Setup := sampleSetup buildLines buildLines_ok

theorem simulates_of_clean_sample : Simulates sampleBuild 2 := by
  have hnames : Undotted sampleBuild := by
    unfold Undotted
    decide +kernel
  exact simulates_of_clean sampleBuild (by decide) (clean_of_undotted (by decide) hnames)

def gccDocLine : PkgLine := sampleLine "gcc.doc".toList gccDoc_plain

def dottedLines : List PkgLine := [gccDocLine, sampleLine "gcc".toList gcc_plain]

theorem dottedLines_ok : (dottedLines.map PkgLine.name).Nodup ∧ ∀ l ∈ dottedLines,
    PackageName l.name := by decide

def sampleDotted : Setup := sampleSetup dottedLines dottedLines_ok

/-- The files of `gcc` take the log of `gcc.doc` with them, which is built again. -/
theorem dotted_built_again : ¬Simulates sampleDotted 1 := by
  intro h
  have htwice : ((sampleDotted.step^[12] (initial 1)).sim.log.count (.created "1-gcc.doc".toList)) =
    2 := by decide +kernel
  have hjob : (⟨1, gccDocLine.text⟩ : Job) ∈ sampleDotted.tree.jobs := by decide +kernel
  have hqid : qid ⟨1, gccDocLine.text⟩ = "1-gcc.doc".toList := by decide +kernel
  obtain ⟨honce, -⟩ := (h.always 12).once _ hjob
  rw [hqid, htwice] at honce
  exact absurd honce (by decide)

end Samples

end T2SDE.Parasim
