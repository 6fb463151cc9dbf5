import T2SDE.BuildTree
import T2SDE.Lib.Run

namespace T2SDE

open Text Awk Relation

/-- One event of a build with any number of builders: a printed pair is started, or a running
pair ends and its out file becomes its log or err file. -/
inductive BuildStep (t : BuildTree) : Files → Files → Prop
  | start {files : Files} {j : Job} : j ∈ t.jobs →
      j.line ∈ jobTexts (createPkgQueue (t.env false files)) →
      BuildStep t files (files.set (t.file j "out") true)
  | finish {files : Files} {j : Job} {ext : String} : j ∈ t.jobs → t.done files j = false →
      files (t.file j "out") = true → ext ∈ ["log", "err"] →
      BuildStep t files ((files.set (t.file j "out") false).set (t.file j ext) true)

/-- No pair is running and the queue is empty. -/
def AtRest (t : BuildTree) (files : Files) : Prop :=
  (∀ j ∈ t.jobs, t.done files j = false → files (t.file j "out") = false) ∧
    jobTexts (createPkgQueue (t.env false files)) = []

theorem atRest_of_stuck {t : BuildTree} {files : Files} (h : ∀ files', ¬BuildStep t files files') :
    AtRest t files := by
  constructor
  · intro j hj hd
    by_contra ho
    exact h _ (.finish hj hd (by simpa using ho) (by simp : "log" ∈ ["log", "err"]))
  · by_contra hne
    obtain ⟨text, htext⟩ := List.exists_mem_of_ne_nil _ hne
    obtain ⟨before, j, after, hs, rfl, _⟩ := mem_createPkgQueue htext
    have hj : j ∈ t.jobs := by
      have : j ∈ schedule (t.env false files).packagesFile := by simp [hs]
      exact this
    exact h _ (.start hj htext)

theorem emitted_mem_emissions {env : QueueEnv} {before mid after : List Job} {j : Job}
    (he : emitted env (before ++ mid) j = true) : j ∈ emissions env before (mid ++ j :: after) := by
  induction mid generalizing before with
  | nil =>
    have he' : emitted env before j = true := by simpa using he
    simp [emissions, he']
  | cons k mid ih =>
    have ih : j ∈ emissions env (before ++ [k]) (mid ++ j :: after) := ih (by simpa using he)
    simp only [List.cons_append, emissions]
    split
    · exact List.mem_cons_of_mem k ih
    · exact ih

theorem emitted_mem_queue {t : BuildTree} {files : Files} {before after : List Job} {j : Job}
    (hs : t.jobs = before ++ j :: after) (he : emitted (t.env false files) before j = true) :
    j.line ∈ jobTexts (createPkgQueue (t.env false files)) := by
  rw [createPkgQueue_jobs]
  have hmem : j ∈ emissions (t.env false files) [] t.jobs := by
    rw [hs]
    exact emitted_mem_emissions he
  exact List.mem_map_of_mem hmem

/-- A pair is never printed again, whatever the builders do from here on. -/
structure Withheld (t : BuildTree) (files : Files) (j : Job) : Prop where
  undone : t.done files j = false
  waiting : files (t.file j "out") = false
  never : ∀ files', ReflTransGen (BuildStep t) files files' →
    j.line ∉ jobTexts (createPkgQueue (t.env false files'))

theorem start_files {t : BuildTree} {k : Job} (hk : k ∈ t.jobs) (files : Files) {j : Job}
    (hj : j ∈ t.jobs) :
    let files' := files.set (t.file k "out") true
    files' (t.file j "log") = files (t.file j "log") ∧
      files' (t.file j "err") = files (t.file j "err") ∧
      (j ≠ k → files' (t.file j "out") = files (t.file j "out")) := by
  refine ⟨Files.set_other _ ?_ _, Files.set_other _ ?_ _, fun hne => Files.set_other _ ?_ _⟩
  · exact fun h => absurd (t.file_injective hj hk rfl rfl h).2 (by decide)
  · exact fun h => absurd (t.file_injective hj hk rfl rfl h).2 (by decide)
  · exact fun h => hne (t.file_injective hj hk rfl rfl h).1

theorem finish_files {t : BuildTree} {k : Job} (hk : k ∈ t.jobs) (files : Files) {j : Job}
    (hj : j ∈ t.jobs) :
    let files' := (files.set (t.file k "out") false).set (t.file k "log") true
    files' (t.file k "log") = true ∧ files' (t.file j "err") = files (t.file j "err") ∧
      (j ≠ k → files' (t.file j "log") = files (t.file j "log") ∧
        files' (t.file j "out") = files (t.file j "out")) := by
  refine ⟨Files.set_same _ _ _, ?_, fun hne => ⟨?_, ?_⟩⟩
  · rw [Files.set_other _ fun h => absurd (t.file_injective hj hk rfl rfl h).2 (by decide),
      Files.set_other _ fun h => absurd (t.file_injective hj hk rfl rfl h).2 (by decide)]
  · rw [Files.set_other _ fun h => hne (t.file_injective hj hk rfl rfl h).1,
      Files.set_other _ fun h => hne (t.file_injective hj hk rfl rfl h).1]
  · rw [Files.set_other _ fun h => hne (t.file_injective hj hk rfl rfl h).1,
      Files.set_other _ fun h => hne (t.file_injective hj hk rfl rfl h).1]

/-- What a run in which every build succeeds keeps of the files it started from. -/
structure Succeeding (t : BuildTree) (files files' : Files) : Prop where
  run : ReflTransGen (BuildStep t) files files'
  err : ∀ k ∈ t.jobs, files' (t.file k "err") = files (t.file k "err")
  done : ∀ k ∈ t.jobs, t.done files k = true → t.done files' k = true

theorem Succeeding.start {t : BuildTree} {files files' : Files} (h : Succeeding t files files')
    {k : Job} (hk : k ∈ t.jobs) (hp : k.line ∈ jobTexts (createPkgQueue (t.env false files'))) :
    Succeeding t files (files'.set (t.file k "out") true) := by
  refine ⟨h.run.tail (.start hk hp), fun j hj => ?_, fun j hj hd => ?_⟩
  · rw [(start_files hk files' hj).2.1, h.err j hj]
  · have hd' := h.done j hj hd
    simpa [BuildTree.done, (start_files hk files' hj).1, (start_files hk files' hj).2.1] using hd'

theorem Succeeding.finish {t : BuildTree} {files files' : Files} (h : Succeeding t files files')
    {k : Job} (hk : k ∈ t.jobs) (hd : t.done files' k = false)
    (ho : files' (t.file k "out") = true) :
    Succeeding t files ((files'.set (t.file k "out") false).set (t.file k "log") true) := by
  refine ⟨h.run.tail (.finish hk hd ho (by simp)), fun j hj => ?_, fun j hj hdj => ?_⟩
  · rw [(finish_files hk files' hj).2.1, h.err j hj]
  · have hd' := h.done j hj hdj
    by_cases hjk : j = k
    · simp [hjk ▸ hd'] at hd
    · obtain ⟨_, herr, hother⟩ := finish_files hk files' hj
      simpa [BuildTree.done, (hother hjk).1, herr] using hd'

def undoneCount (t : BuildTree) (files : Files) : Nat :=
  (t.jobs.filter fun j => !t.done files j).length

theorem undoneCount_finish {t : BuildTree} {k : Job} (hk : k ∈ t.jobs) {files : Files}
    (hd : t.done files k = false) :
    undoneCount t ((files.set (t.file k "out") false).set (t.file k "log") true) <
      undoneCount t files := by
  refine Run.length_filter_lt (fun j hj h => ?_) hk (by simp [hd])
    (by simp [BuildTree.done])
  obtain ⟨_, herr, hother⟩ := finish_files hk files hj
  by_cases hjk : j = k
  · simp [BuildTree.done, hjk] at h
  · simpa [BuildTree.done, (hother hjk).1, herr] using h

theorem undoneCount_start {t : BuildTree} {k : Job} (hk : k ∈ t.jobs) (files : Files) :
    undoneCount t (files.set (t.file k "out") true) = undoneCount t files := by
  unfold undoneCount
  congr 1
  apply List.filter_congr
  intro j hj
  simp [BuildTree.done, (start_files hk files hj).1, (start_files hk files hj).2.1]

theorem line_injective {t : BuildTree} {j k : Job} (hj : j ∈ t.jobs) (hk : k ∈ t.jobs)
    (h : j.line = k.line) : j = k := by
  obtain ⟨hjs, hjl, _⟩ := BuildTree.job_named hj
  obtain ⟨hks, hkl, _⟩ := BuildTree.job_named hk
  have hdigits : ∀ m < 10, ∀ n < 10, digits m = digits n → m = n := by decide
  apply BuildTree.job_ext hj hk
  · apply hdigits _ hjs _ hks
    rw [← field_line_one hjs, ← field_line_one hks, h]
  · rw [← field_line_package hjs hjl, ← field_line_package hks hkl, h]

theorem idle_of_printed {t : BuildTree} {files : Files} {j : Job} (hj : j ∈ t.jobs)
    (hp : j.line ∈ jobTexts (createPkgQueue (t.env false files))) :
    t.done files j = false ∧ files (t.file j "out") = false := by
  obtain ⟨before, k, after, hs, hline, he⟩ := mem_createPkgQueue hp
  have hk : k ∈ t.jobs := by
    have : k ∈ schedule (t.env false files).packagesFile := by simp [hs]
    exact this
  obtain rfl := line_injective hj hk hline
  obtain ⟨hf, ho, _⟩ := emitted_iff.mp he
  exact ⟨by rwa [t.env_finished hj] at hf, by rwa [t.env_out hj] at ho⟩

/-- Unless the build is at rest, some builds that succeed leave fewer pairs to do. -/
theorem Succeeding.progress {t : BuildTree} {files s : Files} (h : Succeeding t files s) :
    AtRest t s ∨ ∃ k ∈ t.jobs, ∃ s', Succeeding t files s' ∧ undoneCount t s' < undoneCount t s ∧
      (k.line ∈ jobTexts (createPkgQueue (t.env false s)) ∨ s (t.file k "out") = true) ∧
      ∀ j ∈ t.jobs, j ≠ k → t.done s' j = t.done s j ∧ s' (t.file j "out") = s (t.file j "out") := by
  by_cases hrest : AtRest t s
  · exact .inl hrest
  right
  by_cases hrun : ∃ k ∈ t.jobs, t.done s k = false ∧ s (t.file k "out") = true
  · obtain ⟨k, hk, hd, ho⟩ := hrun
    refine ⟨k, hk, _, h.finish hk hd ho, undoneCount_finish hk hd, .inr ho, fun j hj hjk => ?_⟩
    obtain ⟨_, herr, hother⟩ := finish_files hk s hj
    exact ⟨by simp [BuildTree.done, (hother hjk).1, herr], (hother hjk).2⟩
  · have hidle : ∀ j ∈ t.jobs, t.done s j = false → s (t.file j "out") = false := by
      intro j hj hd
      by_contra ho
      exact hrun ⟨j, hj, hd, by simpa using ho⟩
    obtain ⟨text, htext⟩ := List.exists_mem_of_ne_nil _ fun hnil => hrest ⟨hidle, hnil⟩
    obtain ⟨before, k, after, hs, rfl, _⟩ := mem_createPkgQueue htext
    have hk : k ∈ t.jobs := by
      have : k ∈ schedule (t.env false s).packagesFile := by simp [hs]
      exact this
    obtain ⟨hd, _⟩ := idle_of_printed hk htext
    have hstarted : t.done (s.set (t.file k "out") true) k = false := by
      simpa [BuildTree.done, (start_files hk s hk).1, (start_files hk s hk).2.1] using hd
    refine ⟨k, hk, _, (h.start hk htext).finish hk hstarted (Files.set_same _ _ _), ?_, .inl htext,
      fun j hj hjk => ?_⟩
    · rw [← undoneCount_start hk s]
      exact undoneCount_finish hk hstarted
    · obtain ⟨hlog, herr, hout⟩ := start_files hk s hj
      obtain ⟨_, herr', hother⟩ := finish_files hk (s.set (t.file k "out") true) hj
      exact ⟨by simp [BuildTree.done, (hother hjk).1, herr', hlog, herr],
        by rw [(hother hjk).2, hout hjk]⟩

theorem Withheld.at_rest {t : BuildTree} {files : Files} {j : Job} (hj : j ∈ t.jobs)
    (h : Withheld t files j) :
    ∃ s, Succeeding t files s ∧ t.done s j = false ∧ AtRest t s := by
  have progress : ∀ s, (Succeeding t files s ∧ t.done s j = false ∧ s (t.file j "out") = false) →
      AtRest t s ∨ ∃ s', (Succeeding t files s' ∧ t.done s' j = false ∧
        s' (t.file j "out") = false) ∧ undoneCount t s' < undoneCount t s := by
    rintro s ⟨hs, hd, ho⟩
    rcases hs.progress with hrest | ⟨k, hk, s', hs', hlt, hwhy, hother⟩
    · exact .inl hrest
    · have hjk : j ≠ k := by
        rintro rfl
        rcases hwhy with hp | ho'
        · exact h.never s hs.run hp
        · simp [ho] at ho'
      obtain ⟨hd', ho'⟩ := hother j hj hjk
      exact .inr ⟨s', ⟨hs', hd'.trans hd, ho'.trans ho⟩, hlt⟩
  have hstart : Succeeding t files files := ⟨.refl, fun _ _ => rfl, fun _ _ hd => hd⟩
  obtain ⟨s, ⟨hs, hd, _⟩, hrest⟩ :=
    Run.exists_final (undoneCount t) progress ⟨hstart, h.undone, h.waiting⟩
  exact ⟨s, hs, hd, hrest⟩

end T2SDE
