import T2SDE.QueueEmitted
import T2SDE.QueueLines

namespace T2SDE

open Text Awk

theorem schedule_sorted (packagesFile : List Str) :
    (schedule packagesFile).Pairwise fun j k => j.stagelevel ≤ k.stagelevel := by
  unfold schedule
  apply List.pairwise_flatMap.mpr
  constructor
  · intro s _
    apply List.pairwise_map.mpr
    exact List.pairwise_of_forall (fun _ _ => le_rfl)
  · apply List.pairwise_lt_range.imp
    intro s t hst j hj k hk
    obtain ⟨_, _, rfl⟩ := List.mem_map.mp hj
    obtain ⟨_, _, rfl⟩ := List.mem_map.mp hk
    exact hst.le

theorem mem_before_of_lt {packagesFile : List Str} {before after : List Job} {j k : Job}
    (hs : schedule packagesFile = before ++ j :: after) (hk : k ∈ schedule packagesFile)
    (hlt : k.stagelevel < j.stagelevel) : k ∈ before := by
  have hsorted := hs ▸ schedule_sorted packagesFile
  have hrest := (List.pairwise_cons.mp (List.pairwise_append.mp hsorted).2.1).1
  rw [hs] at hk
  rcases List.mem_append.mp hk with hk | hk
  · exact hk
  · rcases List.mem_cons.mp hk with rfl | hk
    · omega
    · have := hrest k hk
      omega

theorem pending_eq_false {env : QueueEnv} {stage : Nat} {before : List Job} :
    pending env stage before = false ↔
      ∀ j ∈ before, j.stagelevel < stage → env.finished j = true := by
  simp only [pending, List.any_eq_false, Bool.and_eq_true, Bool.not_eq_true', decide_eq_true_eq,
    not_and]
  constructor
  · intro h j hj hlt
    by_contra hf
    exact h j hj (by simpa using hf) hlt
  · intro h j hj hf hlt
    simp [h j hj hlt] at hf

theorem finished_of_not_missing {env : QueueEnv} {j : Job} (h : env.missing j = false) :
    env.finished j = true := by
  simp only [QueueEnv.missing, Bool.or_eq_false_iff, Bool.not_eq_false'] at h
  exact h.1

theorem emitted_iff {env : QueueEnv} {before : List Job} {j : Job} :
    emitted env before j = true ↔
      env.finished j = false ∧ env.readable (env.path j "out") = false ∧
        ((∀ k ∈ before, env.missing k = false) ∨
          (j.stagelevel = 9 ∧ (∀ k ∈ before, k.stagelevel < 9 → env.finished k = true) ∧
            index (notPresentOf env before) (pad j.package) = false ∧
            j.package ≠ "t2-debug".toList)) := by
  by_cases hnil : notPresentOf env before = []
  · have hdone := notPresentOf_eq_nil.mp hnil
    have hpend : ∀ stage, pending env stage before = false := fun stage =>
      pending_eq_false.mpr fun k hk _ => finished_of_not_missing (hdone k hk)
    have hindex : index [] (pad j.package) = false := by simp [index, pad]
    simp [emitted, hnil, hpend, hindex, eq_true hdone]
  · have hsome : ¬∀ k ∈ before, env.missing k = false := fun h => hnil (notPresentOf_eq_nil.mpr h)
    have hne : (notPresentOf env before != []) = true := by simpa using hnil
    by_cases h9 : j.stagelevel = 9
    · by_cases hp : pending env 9 before = true
      · have hlow : ¬∀ k ∈ before, k.stagelevel < 9 → env.finished k = true := by
          intro h
          simp [pending_eq_false.mpr h] at hp
        simp [emitted, hne, h9, hp, hsome, hlow]
      · have hp' : pending env 9 before = false := by simpa using hp
        have hlow := pending_eq_false.mp hp'
        have h1 : pending env 1 before = false :=
          pending_eq_false.mpr fun k hk hlt => hlow k hk (by omega)
        have h2 : pending env 2 before = false :=
          pending_eq_false.mpr fun k hk hlt => hlow k hk (by omega)
        simp only [emitted, hne, h9, hp', h1, h2, hsome]
        simp [eq_true hlow, and_assoc]
    · simp [emitted, hne, h9, hsome]

theorem mem_emissions {env : QueueEnv} {before rest : List Job} {j : Job}
    (h : j ∈ emissions env before rest) :
    ∃ mid after, rest = mid ++ j :: after ∧ emitted env (before ++ mid) j = true := by
  induction rest generalizing before with
  | nil => simp [emissions] at h
  | cons k rest ih =>
    by_cases he : emitted env before k = true
    · simp only [emissions, he, if_true] at h
      rcases List.mem_cons.mp h with rfl | h
      · exact ⟨[], rest, rfl, by simpa using he⟩
      · obtain ⟨mid, after, rfl, hem⟩ := ih h
        exact ⟨k :: mid, after, rfl, by simpa using hem⟩
    · simp only [emissions, he] at h
      obtain ⟨mid, after, rfl, hem⟩ := ih h
      exact ⟨k :: mid, after, rfl, by simpa using hem⟩

theorem mem_createPkgQueue {env : QueueEnv} {text : Str}
    (h : text ∈ jobTexts (createPkgQueue env)) :
    ∃ before j after, schedule env.packagesFile = before ++ j :: after ∧ text = j.line ∧
      emitted env before j = true := by
  rw [createPkgQueue_jobs] at h
  obtain ⟨j, hj, rfl⟩ := List.mem_map.mp h
  have hmem : j ∈ emissions env [] (schedule env.packagesFile) := by
    split at hj
    · exact List.mem_of_mem_take hj
    · exact hj
  obtain ⟨before, after, hs, he⟩ := mem_emissions hmem
  exact ⟨before, j, after, hs, rfl, by simpa using he⟩

theorem field_line_package {j : Job} (hs : j.stagelevel < 10) (hlen : 5 < (split j.pkgline).length) :
    field (split j.line) 6 = j.package :=
  field_line_succ hs (by omega) hlen

/-- Whatever files exist, a printed pair is enabled, has none of its three files, and comes
after the pairs it has to wait for. -/
theorem createPkgQueue_safe (env : QueueEnv) (text : Str)
    (h : text ∈ jobTexts (createPkgQueue env)) :
    ∃ before j after, schedule env.packagesFile = before ++ j :: after ∧ text = j.line ∧
      field (split text) 1 = digits j.stagelevel ∧
      (5 < (split j.pkgline).length → field (split text) 6 = j.package) ∧
      enabled j.stagelevel j.pkgline = true ∧
      env.readable (env.path j "log") = false ∧ env.readable (env.path j "err") = false ∧
      env.readable (env.path j "out") = false ∧
      (j.stagelevel < 9 → ∀ k ∈ before, env.finished k = true) ∧
      (j.stagelevel = 9 →
        ∀ k ∈ schedule env.packagesFile, k.stagelevel < 9 → env.finished k = true) ∧
      (j.package = "t2-debug".toList → ∀ k ∈ before, env.finished k = true) := by
  obtain ⟨before, j, after, hs, rfl, he⟩ := mem_createPkgQueue h
  obtain ⟨hf, ho, hrule⟩ := emitted_iff.mp he
  have hj : j ∈ schedule env.packagesFile := by simp [hs]
  obtain ⟨hstage, _, hen⟩ := mem_schedule.mp hj
  have hfiles := hf
  simp only [QueueEnv.finished, Bool.or_eq_false_iff] at hfiles
  have hclear : (∀ k ∈ before, env.missing k = false) → ∀ k ∈ before, env.finished k = true :=
    fun hm k hk => finished_of_not_missing (hm k hk)
  refine ⟨before, j, after, hs, rfl, field_line_one hstage, field_line_package hstage, hen,
    hfiles.1, hfiles.2, ho, ?_, ?_, ?_⟩
  · intro hlt
    rcases hrule with hm | ⟨h9, _⟩
    · exact hclear hm
    · omega
  · intro h9 k hk hlt
    have hb := mem_before_of_lt hs hk (by omega)
    rcases hrule with hm | ⟨_, hlow, _⟩
    · exact hclear hm k hb
    · exact hlow k hb hlt
  · intro hdebug
    rcases hrule with hm | ⟨_, _, _, hne⟩
    · exact hclear hm
    · exact absurd hdebug hne

def sampleQueue (single : Bool) (files : List String) : QueueEnv :=
  { single, debug := false, nobrokendeps := false, logdir := "logs".toList
    packagesFile := ["X -1-------- 100.100 base gcc 1 / base/gcc 0".toList,
      "X ---------9 100.200 base sed 1 / base/tool 0".toList,
      "X ---------9 100.300 base awk 1 / base/tool 0".toList]
    readable := fun path => files.any fun file => file.toList == path }

theorem createPkgQueue_safe_sample :
    ∃ before j after, schedule (sampleQueue false ["logs/1-gcc.log", "logs/9-sed.out"]).packagesFile =
        before ++ j :: after ∧
      "9 0 ---------9 100.300 base awk 1 / base/tool 60".toList = j.line ∧
      (j.stagelevel = 9 → ∀ k ∈ schedule (sampleQueue false []).packagesFile,
        k.stagelevel < 9 → (sampleQueue false ["logs/1-gcc.log", "logs/9-sed.out"]).finished k = true) := by
  obtain ⟨before, j, after, hs, ht, _, _, _, _, _, _, _, h9, _⟩ :=
    createPkgQueue_safe (sampleQueue false ["logs/1-gcc.log", "logs/9-sed.out"])
      "9 0 ---------9 100.300 base awk 1 / base/tool 60".toList (by decide +kernel)
  exact ⟨before, j, after, hs, ht, h9⟩

end T2SDE
