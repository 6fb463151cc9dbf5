import T2SDE.QueueRuns

namespace T2SDE

open Text Awk Relation

/-- Without a dependency database the queue lets a pair wait for the pairs before it: below
stage 9 and for t2-debug for all of them, in stage 9 for those of the same package. -/
def waitsFor (j k : Job) : Prop :=
  j.stagelevel < 9 ∨ j.package = "t2-debug".toList ∨ k.package = j.package

/-- The pair waits, directly or through unfinished pairs, for a pair that left an err file.
A pair of stage 9 also waits for the unfinished pairs of the stages below. -/
inductive Blocked (t : BuildTree) (files : Files) : Job → Prop
  | failed {before after : List Job} {j k : Job} : t.jobs = before ++ j :: after → k ∈ before →
      files (t.file k "err") = true → waitsFor j k → Blocked t files j
  | withheld {before after : List Job} {j k : Job} : t.jobs = before ++ j :: after → k ∈ before →
      t.done files k = false → waitsFor j k ∨ k.stagelevel < 9 → Blocked t files k →
      Blocked t files j

theorem Blocked.mono {t : BuildTree} {files files' : Files} {j : Job}
    (herr : ∀ k ∈ t.jobs, files' (t.file k "err") = files (t.file k "err"))
    (hdone : ∀ k ∈ t.jobs, t.done files k = true → t.done files' k = true)
    (h : Blocked t files' j) : Blocked t files j := by
  induction h with
  | @failed _ _ _ k hs hk hf hw =>
    have hkt : k ∈ t.jobs := by simp [hs, hk]
    exact .failed hs hk (herr k hkt ▸ hf) hw
  | @withheld _ _ _ k hs hk hd hw _ ih =>
    have hkt : k ∈ t.jobs := by simp [hs, hk]
    refine .withheld hs hk ?_ hw ih
    by_contra hd'
    simp [hdone k hkt (by simpa using hd')] at hd

theorem package_word {t : BuildTree} {j : Job} (hj : j ∈ t.jobs) :
    j.package ≠ [] ∧ ' ' ∉ j.package := by
  obtain ⟨_, hlen, _⟩ := BuildTree.job_named hj
  have hmem : j.package ∈ split j.pkgline := by
    have h4 : 4 < (split j.pkgline).length := by omega
    have : j.package = (split j.pkgline)[4] := by simp [Job.package, field, h4]
    rw [this]
    exact List.getElem_mem h4
  obtain ⟨hne, hblank⟩ := mem_tokens hmem
  exact ⟨hne, fun hb => by simpa [blank] using hblank ' ' hb⟩

theorem waits_of_not_emitted {t : BuildTree} {files : Files} {before after : List Job} {j : Job}
    (hs : t.jobs = before ++ j :: after) (hd : t.done files j = false)
    (ho : files (t.file j "out") = false) (he : emitted (t.env false files) before j ≠ true) :
    ∃ k ∈ before, (t.env false files).missing k = true ∧
      (waitsFor j k ∨ (k.stagelevel < 9 ∧ t.done files k = false)) := by
  have hj : j ∈ t.jobs := by simp [hs]
  have hbefore : ∀ k ∈ before, k ∈ t.jobs := fun k hk => by simp [hs, hk]
  by_contra hno
  simp only [not_exists, not_and, not_or] at hno
  apply he
  refine emitted_iff.mpr ⟨by rwa [t.env_finished hj], by rwa [t.env_out hj], ?_⟩
  by_cases hclear : ∀ k ∈ before, (t.env false files).missing k = false
  · exact .inl hclear
  right
  simp only [not_forall] at hclear
  obtain ⟨k, hk, hm⟩ := hclear
  have hnot := (hno k hk (by simpa using hm)).1
  simp only [waitsFor, not_or] at hnot
  have hstage := (BuildTree.job_named hj).1
  refine ⟨by omega, fun i hi hlt => ?_, ?_, hnot.2.1⟩
  · by_contra hf
    have hf' : (t.env false files).finished i = false := by simpa using hf
    exact (hno i hi (by simp [QueueEnv.missing, hf'])).2 hlt (by rwa [t.env_finished (hbefore i hi)] at hf')
  · by_contra hindex
    have hinfix : pad j.package <:+:
        ((before.filter (t.env false files).missing).map Job.package).flatMap pad := by
      rw [List.flatMap_map]
      rw [Bool.not_eq_false] at hindex
      exact of_decide_eq_true hindex
    have hblank : ∀ v ∈ (before.filter (t.env false files).missing).map Job.package, ' ' ∉ v := by
      intro v hv
      obtain ⟨i, hi, rfl⟩ := List.mem_map.mp hv
      exact (package_word (hbefore i (List.mem_filter.mp hi).1)).2
    have hword := package_word hj
    obtain ⟨i, hi, hp⟩ := List.mem_map.mp (mem_of_padded hword.1 hword.2 hblank hinfix)
    obtain ⟨hib, him⟩ := List.mem_filter.mp hi
    exact (hno i hib him).1 (.inr (.inr hp))

/-- At rest, an unfinished pair waits for a failed one. -/
theorem blocked_of_atRest {t : BuildTree} {files : Files} (hrest : AtRest t files) {j : Job}
    {before after : List Job} (hs : t.jobs = before ++ j :: after) (hd : t.done files j = false) :
    Blocked t files j := by
  -- on the number of pairs before `j`; a pair it waits for has fewer before it
  induction hn : before.length using Nat.strongRecOn generalizing before after j with
  | _ n ih =>
    have hj : j ∈ t.jobs := by simp [hs]
    have he : emitted (t.env false files) before j ≠ true := by
      intro he
      have hp := emitted_mem_queue hs he
      simp [hrest.2] at hp
    obtain ⟨k, hk, hm, hwait⟩ := waits_of_not_emitted hs hd (hrest.1 j hj hd) he
    have hkt : k ∈ t.jobs := by simp [hs, hk]
    obtain ⟨earlier, later, rfl⟩ := List.append_of_mem hk
    by_cases hkd : t.done files k = true
    · have herr : files (t.file k "err") = true := by
        have hm' := hm
        rw [QueueEnv.missing, t.env_finished hkt, hkd, t.env_path hkt false files "err" (by decide)] at hm'
        simp only [Bool.not_true, Bool.false_or, Bool.and_eq_true] at hm'
        exact hm'.2
      rcases hwait with hwait | ⟨_, hundone⟩
      · exact .failed hs hk herr hwait
      · simp [hkd] at hundone
    · have hkd' : t.done files k = false := by simpa using hkd
      have hk' : t.jobs = earlier ++ k :: (later ++ j :: after) := by simp [hs]
      have hblocked := ih earlier.length (by simp [← hn]) hk' hkd' rfl
      exact .withheld hs hk hkd' (hwait.imp_right And.left) hblocked

/-- A pair withheld for ever waits for a failed one; hence the queue runs empty only when each
pair is finished or waits for a failed one. -/
theorem withheld_only_if_blocked (t : BuildTree) (files : Files) :
    (∀ j ∈ t.jobs, Withheld t files j → Blocked t files j) ∧
      (AtRest t files → ∀ j ∈ t.jobs, t.done files j = true ∨ Blocked t files j) := by
  constructor
  · intro j hj h
    obtain ⟨s, hs, hd, hrest⟩ := h.at_rest hj
    obtain ⟨before, after, hsplit⟩ := List.append_of_mem hj
    exact (blocked_of_atRest hrest hsplit hd).mono hs.err hs.done
  · intro hrest j hj
    obtain ⟨before, after, hsplit⟩ := List.append_of_mem hj
    cases hd : t.done files j with
    | true => exact .inl rfl
    | false => exact .inr (blocked_of_atRest hrest hsplit hd)

/-- A package depends, directly or through withheld packages, on one that left an err file. -/
inductive DependsOnFailed (t : BuildTree) (files : Files) (deps : Str → Str → Prop) : Str → Prop
  | failed {p q : Str} {stagelevel : Nat} : deps p q → stagelevel < 10 →
      files (logFile t.logdir (digits stagelevel) q "err") = true → DependsOnFailed t files deps p
  | withheld {p : Str} {k : Job} : deps p k.package → k ∈ t.jobs → Withheld t files k →
      DependsOnFailed t files deps k.package → DependsOnFailed t files deps p

def awkJob : Job := ⟨5, "X -----5---- 100.100 base awk 1 / base/tool 0".toList⟩
def sedJob : Job := ⟨5, "X -----5---- 100.200 base sed 1 / base/tool 0".toList⟩

def awkStarted : Files := noFiles.set ((sampleTree true).file awkJob "out") true

def awkFailed : Files :=
  (awkStarted.set ((sampleTree true).file awkJob "out") false).set
    ((sampleTree true).file awkJob "err") true

theorem awkFailed_reached : ReflTransGen (BuildStep (sampleTree true)) noFiles awkFailed := by
  have hawk : awkJob ∈ (sampleTree true).jobs := by decide +kernel
  have hstart : BuildStep (sampleTree true) noFiles awkStarted := .start hawk (by decide +kernel)
  have hfinish : BuildStep (sampleTree true) awkStarted awkFailed :=
    .finish hawk (by decide +kernel) (by decide +kernel) (by simp)
  exact (ReflTransGen.single hstart).tail hfinish

theorem awkFailed_stuck (files : Files) : ¬BuildStep (sampleTree true) awkFailed files := by
  have hqueue : jobTexts (createPkgQueue ((sampleTree true).env false awkFailed)) = [] := by
    decide +kernel
  have hidle : ∀ j ∈ (sampleTree true).jobs, awkFailed ((sampleTree true).file j "out") = false := by
    decide +kernel
  intro h
  cases h with
  | start hj hp => simp [hqueue] at hp
  | finish hj hd ho hext => simp [hidle _ hj] at ho

/-- With -nobrokendeps a failed build withholds a package that depends on nothing. -/
theorem unrelated_package_withheld :
    ∃ files, ReflTransGen (BuildStep (sampleTree true)) noFiles files ∧
      ∃ j ∈ (sampleTree true).jobs, Withheld (sampleTree true) files j ∧
        ¬DependsOnFailed (sampleTree true) files (fun _ _ => False) j.package := by
  refine ⟨awkFailed, awkFailed_reached, sedJob, by decide +kernel,
    ⟨by decide +kernel, by decide +kernel, ?_⟩, ?_⟩
  · intro files' hr
    rw [Run.eq_of_stuck awkFailed_stuck hr]
    decide +kernel
  · intro h
    cases h with
    | failed hdep _ _ => exact hdep
    | withheld hdep _ _ _ => exact hdep

theorem withheld_only_if_blocked_sample : Blocked (sampleTree true) awkFailed sedJob := by
  have hor := (withheld_only_if_blocked (sampleTree true) awkFailed).2
    (atRest_of_stuck awkFailed_stuck) sedJob (by decide +kernel)
  exact hor.resolve_left (by decide +kernel)

end T2SDE
