import T2SDE.QueueScan

namespace T2SDE

open Text Awk

theorem num_ne_stage9NoDeps (stagelevel : Nat) (early : Bool) :
    (AwkValue.num stagelevel != if stagelevel < 9 then .str "x".toList
      else if early then .str "x".toList else .num 9) =
      (decide (stagelevel < 9) || early || stagelevel != 9) := by
  by_cases h : stagelevel < 9
  · simp [h, bne]
  · cases early
    · simp [h, bne]
    · simp [h, bne]

/-- The rules of `check_package`, evaluated on the scanned variables, come down to `emitted`. -/
theorem decision_eq_emitted {env : QueueEnv} (before : List Job) {j : Job}
    (hf : env.finished j = false) :
    (!env.readable (env.path j "out") && !index (notPresentOf env before) (pad j.package) &&
      !(j.stagelevel == 0 && notPresentOf env before != []) &&
      !(decide (j.stagelevel > 0) && (pending env 1 before || j.stagelevel == 0)) &&
      !(decide (j.stagelevel ≥ 2) && (pending env 2 before || decide (j.stagelevel ≤ 1))) &&
      !(!false && notPresentOf env before != [] && AwkValue.num j.stagelevel !=
        if j.stagelevel < 9 then .str "x".toList
        else if pending env 9 before then .str "x".toList else .num 9) &&
      !(j.package == "t2-debug".toList && notPresentOf env before != [])) = emitted env before j := by
  have h0 : (decide (j.stagelevel > 0) && (pending env 1 before || j.stagelevel == 0)) =
      (decide (j.stagelevel > 0) && pending env 1 before) := by
    cases hz : j.stagelevel <;> simp
  have h1 : (decide (j.stagelevel ≥ 2) && (pending env 2 before || decide (j.stagelevel ≤ 1))) =
      (decide (j.stagelevel ≥ 2) && pending env 2 before) := by
    by_cases hz : j.stagelevel ≥ 2
    · simp [hz, show ¬j.stagelevel ≤ 1 by omega]
    · simp [hz]
  rw [h0, h1, num_ne_stage9NoDeps]
  simp only [emitted, hf, Bool.not_false, Bool.true_and]

theorem jobTexts_note (c : Bool) (out : List QueueLine) (text : Str) :
    jobTexts (if c then out ++ [.debug text] else out) = jobTexts out := by
  cases c <;> simp

theorem scanned_unfinished {env : QueueEnv} {before : List Job} {g g' : QueueVars} {j : Job}
    (hs : Scanned env before g) (hf : env.finished j = false)
    (hnp : g'.notPresent = notPresentOf env before ++ pad j.package)
    (h0 : g'.stage0NotPresent = (pending env 1 before || j.stagelevel == 0))
    (h1 : g'.stage01NotPresent = (pending env 2 before || decide (j.stagelevel ≤ 1)))
    (h9 : g'.stage9NoDeps = if j.stagelevel < 9 then .str "x".toList
      else if pending env 9 before then .str "x".toList else .num 9)
    (hd : g'.database = g.database) : Scanned env (before ++ [j]) g' := by
  have hmiss : env.missing j = true := by simp [QueueEnv.missing, hf]
  refine ⟨?_, ?_, ?_, ?_, fun package => hd ▸ hs.database package⟩
  · rw [hnp, notPresentOf_append, hmiss, if_pos rfl]
  · rw [h0, pending_append, hf]
    cases j.stagelevel <;> simp
  · rw [h1, pending_append, hf]
    have hle : j.stagelevel ≤ 1 ↔ j.stagelevel < 2 := by omega
    simp only [hle, Bool.not_false, Bool.true_and]
  · rw [h9, pending_append, hf]
    by_cases hlt : j.stagelevel < 9
    · simp [hlt]
    · simp [hlt]

theorem checkMissing_spec {env : QueueEnv} {before : List Job} {g : QueueVars} {j : Job}
    (hs : Scanned env before g) (hf : env.finished j = false) :
    let g' := checkMissing env j.stagelevel j.pkgline j.package (env.path j "out") g
    jobTexts g'.out = jobTexts g.out ++ (if emitted env before j then [j.line] else []) ∧
      g'.exited = (g.exited || (emitted env before j && env.single)) ∧
      ((emitted env before j && env.single) = false → Scanned env (before ++ [j]) g') := by
  have hdb : ∀ l, checkDatabase env j.stagelevel j.package g l = l := by
    intro l
    simp [checkDatabase, hs.database]
  simp only [checkMissing, hdb, hs.notPresent, hs.stage0, hs.stage01, hs.stage9,
    decision_eq_emitted before hf]
  have hnote := jobTexts_note (index (notPresentOf env before) (pad j.package) && env.debug &&
    !env.readable (env.path j "out")) g.out
  cases he : emitted env before j with
  | false =>
    simp only [Bool.false_eq_true, if_false, Bool.false_and, hnote, List.append_nil, Bool.or_false]
    exact ⟨trivial, trivial, fun _ => scanned_unfinished hs hf rfl rfl rfl rfl rfl⟩
  | true =>
    cases hi : env.single with
    | false =>
      simp only [Bool.false_eq_true, if_false, if_true, Bool.and_false, hnote, jobTexts_append,
        Bool.or_false]
      exact ⟨rfl, trivial, fun _ => scanned_unfinished hs hf rfl rfl rfl rfl rfl⟩
    | true =>
      simp only [if_true, Bool.and_true, hnote, jobTexts_append, Bool.or_true]
      exact ⟨rfl, trivial, fun h => absurd h (by simp)⟩

theorem stepJob_spec {env : QueueEnv} {before : List Job} {g : QueueVars} {j : Job}
    (hs : Scanned env before g) (hx : g.exited = false) :
    jobTexts (stepJob env g j).out = jobTexts g.out ++ (if emitted env before j then [j.line] else []) ∧
      (stepJob env g j).exited = (emitted env before j && env.single) ∧
      ((emitted env before j && env.single) = false → Scanned env (before ++ [j]) (stepJob env g j)) := by
  by_cases hf : env.finished j = true
  · have he : emitted env before j = false := by simp [emitted, hf]
    have hpend : ∀ stage, pending env stage (before ++ [j]) = pending env stage before := by
      intro stage
      simp [pending_append, hf]
    by_cases hm : env.missing j = true
    · simp only [stepJob, checkJob, hx, hf, hm, he]
      refine ⟨by simp, by simp, fun _ => ⟨?_, ?_, ?_, ?_, hs.database⟩⟩
      · simp [notPresentOf_append, hm, hs.notPresent]
      · simpa [hpend] using hs.stage0
      · simpa [hpend] using hs.stage01
      · simpa [hpend] using hs.stage9
    · simp only [stepJob, checkJob, hx, hf, hm, he]
      refine ⟨by simp, by simpa using hx, fun _ => ⟨?_, ?_, ?_, ?_, hs.database⟩⟩
      · simp [notPresentOf_append, hm, hs.notPresent]
      · simpa [hpend] using hs.stage0
      · simpa [hpend] using hs.stage01
      · simpa [hpend] using hs.stage9
  · have hf' : env.finished j = false := by simpa using hf
    have hstep : stepJob env g j =
        checkMissing env j.stagelevel j.pkgline j.package (env.path j "out") g := by
      simp [stepJob, checkJob, hx, hf']
    rw [hstep]
    simpa [hx] using checkMissing_spec (j := j) hs hf'

/-- The pairs printed from a rest of the schedule when a prefix was read before it. -/
def emissions (env : QueueEnv) : List Job → List Job → List Job
  | _, [] => []
  | before, j :: rest =>
    if emitted env before j then j :: emissions env (before ++ [j]) rest
    else emissions env (before ++ [j]) rest

theorem stepJobs_exited {env : QueueEnv} {g : QueueVars} (hx : g.exited = true) (rest : List Job) :
    rest.foldl (stepJob env) g = g := by
  induction rest with
  | nil => rfl
  | cons j rest ih => simpa [stepJob, hx] using ih

theorem stepJobs_out {env : QueueEnv} (rest : List Job) {before : List Job} {g : QueueVars}
    (hs : Scanned env before g) (hx : g.exited = false) :
    jobTexts (rest.foldl (stepJob env) g).out = jobTexts g.out ++
      ((if env.single then (emissions env before rest).take 1 else emissions env before rest).map
        Job.line) := by
  induction rest generalizing before g with
  | nil => simp [emissions]
  | cons j rest ih =>
    obtain ⟨hout, hexit, hnext⟩ := stepJob_spec (j := j) hs hx
    simp only [List.foldl_cons]
    by_cases hstop : (emitted env before j && env.single) = true
    · obtain ⟨he, hi⟩ := Bool.and_eq_true_iff.mp hstop
      rw [stepJobs_exited (hexit.trans hstop), hout]
      simp [emissions, he, hi]
    · have hgo : (emitted env before j && env.single) = false := by simpa using hstop
      rw [ih (hnext hgo) (hexit.trans hgo), hout]
      cases he : emitted env before j with
      | false => simp [emissions, he]
      | true =>
        have hi : env.single = false := by simpa [he] using hgo
        simp [emissions, he, hi]

theorem scanned_init (env : QueueEnv) : Scanned env [] queueInit :=
  ⟨rfl, rfl, rfl, rfl, fun _ => rfl⟩

/-- The jobs on standard output: all emitted pairs, or the first one with `-single`. -/
theorem createPkgQueue_jobs (env : QueueEnv) :
    jobTexts (createPkgQueue env) =
      ((if env.single then (emissions env [] (schedule env.packagesFile)).take 1
        else emissions env [] (schedule env.packagesFile)).map Job.line) := by
  rw [createPkgQueue_eq, stepJobs_out _ (scanned_init env) rfl]
  rfl

theorem stepJob_out {env : QueueEnv} (hd : env.debug = false) {g : QueueVars}
    (hdb : ∀ package, g.database package = none) (j : Job) :
    ∃ texts : List Str, (stepJob env g j).out = g.out ++ texts.map .job ∧
      (stepJob env g j).database = g.database := by
  have hjob : ∀ (build : Bool) (text : Str), ∃ texts : List Str,
      (if build then g.out ++ [.job text] else g.out) = g.out ++ texts.map .job := by
    intro build text
    cases build with
    | true => exact ⟨[text], rfl⟩
    | false => exact ⟨[], by simp⟩
  unfold stepJob checkJob
  split
  · exact ⟨[], by simp, rfl⟩
  · split
    · have hlocal : ∀ l, checkDatabase env j.stagelevel j.package g l = l := by
        intro l
        simp [checkDatabase, hdb]
      simp only [checkMissing, hlocal, hd, Bool.and_false, Bool.false_and, Bool.false_eq_true,
        if_false, apply_ite QueueVars.out, apply_ite QueueVars.database, ite_self]
      obtain ⟨texts, ht⟩ := hjob _ _
      exact ⟨texts, ht, trivial⟩
    · split
      · exact ⟨[], by simp, rfl⟩
      · exact ⟨[], by simp, rfl⟩

theorem stepJobs_no_debug {env : QueueEnv} (hd : env.debug = false) (rest : List Job)
    {g : QueueVars} (hdb : ∀ package, g.database package = none) :
    ∃ texts : List Str, (rest.foldl (stepJob env) g).out = g.out ++ texts.map .job := by
  induction rest generalizing g with
  | nil => exact ⟨[], by simp⟩
  | cons j rest ih =>
    obtain ⟨now, hnow, hsame⟩ := stepJob_out hd hdb j
    obtain ⟨later, hlater⟩ := ih (g := stepJob env g j) (fun package => by rw [hsame, hdb])
    exact ⟨now ++ later, by simp [hlater, hnow]⟩

theorem createPkgQueue_no_debug (env : QueueEnv) (hd : env.debug = false) :
    createPkgQueue env = (jobTexts (createPkgQueue env)).map .job := by
  obtain ⟨texts, h⟩ := stepJobs_no_debug hd (schedule env.packagesFile)
    (scanned_init env).database
  have h' : createPkgQueue env = texts.map .job := by simpa [createPkgQueue_eq, queueInit] using h
  have hj : jobTexts (texts.map .job) = texts := by
    simp [jobTexts, List.filterMap_map]
  rw [h', hj]

end T2SDE
