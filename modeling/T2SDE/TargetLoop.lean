import T2SDE.BuildTarget

namespace T2SDE

open Text Awk

theorem find_congr {α : Type} {p q : α → Bool} {l : List α} (h : ∀ x ∈ l, p x = q x) :
    l.find? p = l.find? q := by
  induction l with
  | nil => rfl
  | cons x l ih => simp [List.find?_cons, h x (by simp), ih fun y hy => h y (by simp [hy])]

/-- With -single and no out file of an unfinished pair the command prints the first
unfinished pair, and nothing when there is none. -/
theorem commandOutput_next {t : BuildTree} (hn : t.nobrokendeps = false) {files : Files}
    (idle : ∀ j ∈ t.jobs, t.done files j = false → files (t.file j "out") = false) :
    commandOutput (createPkgQueue (t.env true files)) =
      ((t.jobs.find? fun j => !t.done files j).map Job.line).getD [] := by
  have idle' : ∀ j ∈ schedule (t.env true files).packagesFile, (t.env true files).finished j = false →
      (t.env true files).readable ((t.env true files).path j "out") = false := by
    intro j hj hf
    rw [t.env_out hj]
    exact idle j hj (by rwa [t.env_finished hj] at hf)
  have hhead := createPkgQueue_head (show (t.env true files).nobrokendeps = false from hn) idle'
  have hsingle := createPkgQueue_single (t.env true files)
  have hfind : ((schedule (t.env true files).packagesFile).find? fun j =>
      !(t.env true files).finished j) = t.jobs.find? fun j => !t.done files j :=
    find_congr fun j hj => by rw [t.env_finished hj]
  rw [hfind] at hhead
  have hlen : (jobTexts (createPkgQueue (t.env true files))).length ≤ 1 := by
    have h := congrArg List.length hsingle
    have hsame : ({ t.env true files with single := true } : QueueEnv) = t.env true files := rfl
    rw [hsame, List.length_take] at h
    omega
  rw [createPkgQueue_no_debug (t.env true files) rfl]
  cases hjobs : jobTexts (createPkgQueue (t.env true files)) with
  | nil =>
    rw [hjobs] at hhead
    rw [← hhead]
    rfl
  | cons text rest =>
    rw [hjobs] at hhead hlen
    have hrest : rest = [] := by simpa using hlen
    rw [← hhead, hrest]
    simp [commandOutput, List.intercalate]

theorem Job.line_ne_nil (j : Job) : j.line ≠ [] := by
  simp [Job.line, queueLine]

def Job.build (j : Job) (buildPkg : Str → Str → BuildResult) : BuildResult :=
  buildPkg (digits j.stagelevel) j.package

/-- Every build leaves a log or an err file, and no failure ends the target. -/
structure BuildsGoOn (c : TargetConfig) (buildPkg : Str → Str → BuildResult) : Prop where
  leaves : ∀ j ∈ c.tree.jobs, ((j.build buildPkg).log || (j.build buildPkg).err) = true
  goesOn : ∀ j ∈ c.tree.jobs, (j.build buildPkg).succeeded = true ∨
    c.continueOnErrorAfter < number (digits j.stagelevel)

theorem files_after_build {t : BuildTree} {j k : Job} (hj : j ∈ t.jobs) (hk : k ∈ t.jobs)
    (files : Files) (r : BuildResult) :
    let files' := ((files.set (t.file j "log") r.log).set (t.file j "err") r.err).set
      (t.file j "out") r.out
    files' (t.file j "log") = r.log ∧ files' (t.file j "err") = r.err ∧
      (k ≠ j → ∀ ext ∈ ["log", "err", "out"], files' (t.file k ext) = files (t.file k ext)) := by
  have hne : ∀ {e f : String}, e.toList.length = 3 → f.toList.length = 3 → e ≠ f →
      t.file j e ≠ t.file j f := fun he hf hef h => hef (t.file_injective hj hj he hf h).2
  refine ⟨?_, ?_, ?_⟩
  · rw [Files.set_other _ (hne rfl rfl (by decide)), Files.set_other _ (hne rfl rfl (by decide)),
      Files.set_same]
  · rw [Files.set_other _ (hne rfl rfl (by decide)), Files.set_same]
  · intro hkj ext hext
    have hlen : ext.toList.length = 3 := by
      simp only [List.mem_cons, List.not_mem_nil, or_false] at hext
      rcases hext with rfl | rfl | rfl <;> rfl
    have hother : ∀ {f : String}, f.toList.length = 3 → t.file k ext ≠ t.file j f :=
      fun hf h => hkj (t.file_injective hk hj hlen hf h).1
    rw [Files.set_other _ (hother rfl), Files.set_other _ (hother rfl), Files.set_other _ (hother rfl)]

theorem pkgloopPackage_line {c : TargetConfig} {buildPkg : Str → Str → BuildResult}
    (hb : BuildsGoOn c buildPkg) {j : Job} (hj : j ∈ c.tree.jobs) (st : TargetState) :
    let st' := pkgloopPackage c buildPkg (split j.line) st
    st'.aborted = st.aborted ∧ st'.built = st.built ++ [(digits j.stagelevel, j.package)] ∧
      c.tree.done st'.files j = true ∧
      ∀ k ∈ c.tree.jobs, k ≠ j → ∀ ext ∈ ["log", "err", "out"],
        st'.files (c.tree.file k ext) = st.files (c.tree.file k ext) := by
  obtain ⟨hs, hlen, _, he⟩ := BuildTree.job_named hj
  have hstages : field (split j.line) 3 = field (split j.pkgline) 2 :=
    field_line_succ hs (by omega) (by omega)
  have hmatch : (exprMatch (field (split j.pkgline) 2) (digits j.stagelevel) == 0) = false := by
    simp only [enabled, index, Bool.and_eq_true, decide_eq_true_eq] at he
    have hone : ∀ n < 10, (digits n).length = 1 := by decide
    have hle := he.2.length_le
    rw [hone _ hs] at hle
    simp only [exprMatch, if_pos he.2, beq_eq_false_iff_ne]
    omega
  have hleaves := hb.leaves j hj
  let r := j.build buildPkg
  have hgoes : ¬(!r.succeeded && decide (number (digits j.stagelevel) ≤ c.continueOnErrorAfter)) =
      true := by
    rcases hb.goesOn j hj with h | h
    · simp [r, h]
    · simp [show ¬number (digits j.stagelevel) ≤ c.continueOnErrorAfter by omega]
  let files := ((st.files.set (c.tree.file j "log") r.log).set (c.tree.file j "err") r.err).set
    (c.tree.file j "out") r.out
  have hlog : files (c.tree.file j "log") = r.log := (files_after_build hj hj st.files r).1
  have herr : files (c.tree.file j "err") = r.err := (files_after_build hj hj st.files r).2.1
  have hfound : ¬(!files (c.tree.file j "log") && !files (c.tree.file j "err")) = true := by
    rw [hlog, herr, ← Bool.not_or, hleaves]
    simp
  have hround : pkgloopPackage c buildPkg (split j.line) st =
      { files, built := st.built ++ [(digits j.stagelevel, j.package)], aborted := st.aborted } := by
    simp only [pkgloopPackage, field_line_one hs, hstages, field_line_package hs hlen, hmatch,
      Bool.false_eq_true, if_false]
    exact (if_neg hgoes).trans (if_neg hfound)
  simp only [hround]
  refine ⟨trivial, trivial, ?_, ?_⟩
  · rw [BuildTree.done, hlog, herr, hleaves]
  · intro k hk hkj
    exact (files_after_build hj hk st.files r).2.2 hkj

/-- The loop state when a prefix of the schedule is done and the rest untouched. -/
structure LoopAt (c : TargetConfig) (before rest : List Job) (st : TargetState) : Prop where
  split_eq : c.tree.jobs = before ++ rest
  goesOn : st.aborted = false
  built : st.built = before.map fun j => (digits j.stagelevel, j.package)
  done : ∀ j ∈ before, c.tree.done st.files j = true
  fresh : ∀ j ∈ rest, ∀ ext ∈ ["log", "err", "out"], st.files (c.tree.file j ext) = false

theorem LoopAt.not_done {c : TargetConfig} {before rest : List Job} {st : TargetState}
    (h : LoopAt c before rest st) {j : Job} (hj : j ∈ rest) : c.tree.done st.files j = false := by
  simp [BuildTree.done, h.fresh j hj "log" (by simp), h.fresh j hj "err" (by simp)]

theorem LoopAt.next {c : TargetConfig} {before rest : List Job} {st : TargetState}
    (hn : c.tree.nobrokendeps = false) (h : LoopAt c before rest st) :
    commandOutput (createPkgQueue (c.tree.env true st.files)) =
      (rest.head?.map Job.line).getD [] := by
  have idle : ∀ j ∈ c.tree.jobs, c.tree.done st.files j = false →
      st.files (c.tree.file j "out") = false := by
    intro j hj hd
    rw [h.split_eq] at hj
    rcases List.mem_append.mp hj with hj | hj
    · simp [h.done j hj] at hd
    · exact h.fresh j hj "out" (by simp)
  have hbefore : before.find? (fun j => !c.tree.done st.files j) = none := by
    apply List.find?_eq_none.mpr
    intro j hj
    simp [h.done j hj]
  rw [commandOutput_next hn idle, h.split_eq, List.find?_append, hbefore]
  cases rest with
  | nil => rfl
  | cons j rest => simp [h.not_done (j := j) (by simp)]

theorem LoopAt.step {c : TargetConfig} {buildPkg : Str → Str → BuildResult}
    (hb : BuildsGoOn c buildPkg) {before rest : List Job} {j : Job} {st : TargetState}
    (h : LoopAt c before (j :: rest) st) :
    LoopAt c (before ++ [j]) rest (pkgloopPackage c buildPkg (split j.line) st) := by
  have hj : j ∈ c.tree.jobs := by simp [h.split_eq]
  obtain ⟨hab, hbuilt, hdone, hother⟩ := pkgloopPackage_line hb hj st
  have hnodup := h.split_eq ▸ c.tree.jobs_nodup
  obtain ⟨_, hrest, hdisj⟩ := List.nodup_append.mp hnodup
  have hmem : ∀ k ∈ before, k ∈ c.tree.jobs ∧ k ≠ j := fun k hk =>
    ⟨by simp [h.split_eq, hk], hdisj k hk j (by simp)⟩
  have hmem' : ∀ k ∈ rest, k ∈ c.tree.jobs ∧ k ≠ j := fun k hk =>
    ⟨by simp [h.split_eq, hk], fun e => (List.nodup_cons.mp hrest).1 (e ▸ hk)⟩
  refine ⟨by simp [h.split_eq], hab.trans h.goesOn, by simp [hbuilt, h.built], ?_, ?_⟩
  · intro k hk
    rcases List.mem_append.mp hk with hk | hk
    · obtain ⟨hkt, hkj⟩ := hmem k hk
      have hkd := h.done k hk
      simpa [BuildTree.done, hother k hkt hkj "log" (by simp), hother k hkt hkj "err" (by simp)] using hkd
    · rwa [List.mem_singleton.mp hk]
  · intro k hk ext hext
    obtain ⟨hkt, hkj⟩ := hmem' k hk
    rw [hother k hkt hkj ext hext]
    exact h.fresh k (by simp [hk]) ext hext

theorem LoopAt.run {c : TargetConfig} {buildPkg : Str → Str → BuildResult}
    (hn : c.tree.nobrokendeps = false) (hb : BuildsGoOn c buildPkg) {before rest : List Job}
    {st : TargetState} (h : LoopAt c before rest st) :
    ∃ st', pkgloop c buildPkg (rest.length + 1) st = some st' ∧ LoopAt c c.tree.jobs [] st' := by
  induction rest generalizing before st with
  | nil =>
    have heq : c.tree.jobs = before := by simpa using h.split_eq
    exact ⟨st, by simp [pkgloop, h.next hn], heq ▸ h⟩
  | cons j rest ih =>
    obtain ⟨st', hrun, hend⟩ := ih (h.step hb)
    refine ⟨st', ?_, hend⟩
    rw [List.length_cons, pkgloop, h.next hn]
    simp only [List.head?_cons, Option.map_some, Option.getD_some, j.line_ne_nil, if_false,
      (h.step hb).goesOn, Bool.false_eq_true]
    exact hrun

/-- Whatever the builds leave, the package loop ends and has built every enabled pair once,
in (stage, list position) order. -/
theorem pkgloop_builds_schedule (c : TargetConfig) (buildPkg : Str → Str → BuildResult)
    (hn : c.tree.nobrokendeps = false) (hb : BuildsGoOn c buildPkg) :
    ∃ fuel st, pkgloop c buildPkg fuel (pkgloopStart c noFiles) = some st ∧
      st.aborted = false ∧
      st.built = (schedule c.tree.packages.lines).map (fun j => (digits j.stagelevel, j.package)) ∧
      st.built.Nodup := by
  have hstart : LoopAt c [] c.tree.jobs (pkgloopStart c noFiles) :=
    ⟨rfl, rfl, rfl, by simp, fun _ _ _ _ => rfl⟩
  obtain ⟨st, hrun, hend⟩ := hstart.run hn hb
  refine ⟨_, st, hrun, hend.goesOn, hend.built, ?_⟩
  rw [hend.built]
  apply c.tree.jobs_nodup.map_on
  intro j hj k hk hjk
  obtain ⟨hs, hp⟩ := Prod.mk.inj hjk
  have hdigits : ∀ m < 10, ∀ n < 10, digits m = digits n → m = n := by decide
  exact BuildTree.job_ext hj hk
    (hdigits _ (BuildTree.job_named hj).1 _ (BuildTree.job_named hk).1 hs) hp

theorem pkgloop_builds_schedule_sample :
    ∃ fuel st, pkgloop ⟨sampleTree false, false, 4⟩
        (fun _ pkgName => let ok := pkgName != "awk".toList; ⟨ok, ok, !ok, false⟩) fuel
        (pkgloopStart ⟨sampleTree false, false, 4⟩ noFiles) = some st ∧
      st.aborted = false ∧
      st.built = (schedule samplePackages.lines).map (fun j => (digits j.stagelevel, j.package)) ∧
      st.built.Nodup :=
  pkgloop_builds_schedule ⟨sampleTree false, false, 4⟩ _ rfl
    ⟨by decide +kernel, by decide +kernel⟩

end T2SDE
