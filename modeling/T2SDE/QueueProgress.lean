import T2SDE.QueueSafety

namespace T2SDE

open Text Awk

theorem missing_eq {env : QueueEnv} (hn : env.nobrokendeps = false) (j : Job) :
    env.missing j = !env.finished j := by
  simp [QueueEnv.missing, hn]

theorem emissions_head {env : QueueEnv} (hn : env.nobrokendeps = false) {before rest : List Job}
    (hb : ∀ k ∈ before, env.finished k = true)
    (idle : ∀ k ∈ rest, env.finished k = false → env.readable (env.path k "out") = false) :
    (emissions env before rest).head? = rest.find? fun k => !env.finished k := by
  induction rest generalizing before with
  | nil => rfl
  | cons j rest ih =>
    have idle' : ∀ k ∈ rest, env.finished k = false → env.readable (env.path k "out") = false :=
      fun k hk => idle k (by simp [hk])
    by_cases hf : env.finished j = true
    · have he : emitted env before j = false := by simp [emitted, hf]
      have hb' : ∀ k ∈ before ++ [j], env.finished k = true := by
        intro k hk
        rcases List.mem_append.mp hk with hk | hk
        · exact hb k hk
        · rwa [List.mem_singleton.mp hk]
      simpa [emissions, he, hf] using ih hb' idle'
    · have hf' : env.finished j = false := by simpa using hf
      have he : emitted env before j = true := by
        refine emitted_iff.mpr ⟨hf', idle j (by simp) hf', Or.inl fun k hk => ?_⟩
        simp [missing_eq hn, hb k hk]
      simp [emissions, he, hf']

theorem createPkgQueue_single (env : QueueEnv) :
    jobTexts (createPkgQueue { env with single := true }) =
      (jobTexts (createPkgQueue { env with single := false })).take 1 := by
  have hem : ∀ single before rest,
      emissions { env with single } before rest = emissions env before rest := by
    intro single before rest
    induction rest generalizing before with
    | nil => rfl
    | cons j rest ih =>
      have he : emitted { env with single } before j = emitted env before j := rfl
      simp only [emissions, he, ih]
  rw [createPkgQueue_jobs, createPkgQueue_jobs]
  simp [hem, List.map_take]

theorem createPkgQueue_head {env : QueueEnv} (hn : env.nobrokendeps = false)
    (idle : ∀ j ∈ schedule env.packagesFile, env.finished j = false →
      env.readable (env.path j "out") = false) :
    (jobTexts (createPkgQueue env)).head? =
      ((schedule env.packagesFile).find? fun j => !env.finished j).map Job.line := by
  rw [← emissions_head hn (by simp : ∀ k ∈ [], env.finished k = true) idle, createPkgQueue_jobs]
  cases env.single <;> simp [List.head?_take]

/-- With no job running the queue is never stuck: its first line is the first unfinished
pair, and it is empty only when all pairs are finished. With any files at all, -single
prints the first line of the full output. -/
theorem createPkgQueue_progress (env : QueueEnv) (hn : env.nobrokendeps = false) :
    ((∀ j ∈ schedule env.packagesFile, env.finished j = false →
        env.readable (env.path j "out") = false) →
      (jobTexts (createPkgQueue env)).head? =
          ((schedule env.packagesFile).find? fun j => !env.finished j).map Job.line ∧
        ((∃ j ∈ schedule env.packagesFile, env.finished j = false) ↔
          jobTexts (createPkgQueue env) ≠ [])) ∧
      jobTexts (createPkgQueue { env with single := true }) =
        (jobTexts (createPkgQueue { env with single := false })).take 1 := by
  refine ⟨fun idle => ?_, createPkgQueue_single env⟩
  have hhead := createPkgQueue_head hn idle
  refine ⟨hhead, ?_⟩
  rw [ne_eq, ← List.head?_eq_none_iff, hhead, Option.map_eq_none_iff, List.find?_eq_none]
  simp

theorem createPkgQueue_progress_sample :
    (jobTexts (createPkgQueue (sampleQueue false ["logs/1-gcc.log", "logs/9-sed.log"]))).head? =
      ((schedule (sampleQueue false []).packagesFile).find? fun j =>
        !(sampleQueue false ["logs/1-gcc.log", "logs/9-sed.log"]).finished j).map Job.line :=
  ((createPkgQueue_progress (sampleQueue false ["logs/1-gcc.log", "logs/9-sed.log"]) rfl).1
    (by decide +kernel)).1

end T2SDE
