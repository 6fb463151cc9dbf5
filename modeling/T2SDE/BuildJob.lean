import Mathlib.Logic.Function.Basic
import Mathlib.Logic.Relation

namespace T2SDE.BuildJob

open Function

/-- Where the job loop is between `[ -f $qid.job ]` and the next `for qid`. -/
inductive Stage
  | checked
  | locked
  | sourced
  | announced
  | building
  | returned
  | unlocked
  deriving DecidableEq

/-- A Build-Job process: the daemon loop, the job loop, or gone. -/
inductive Proc (Pid Qid : Type)
  | absent
  | daemon
  | scan (queue : List Qid)
  | jobTested (present : Bool) (qid : Qid) (queue : List Qid)
  | calling (qid : Qid)
  | waiting (child : Pid)
  | loop (qids : List Qid)
  | work (qid : Qid) (stage : Stage) (rest : List Qid)
  | exit (status : Nat)

inductive Event (Pid : Type)
  | began (p : Pid)
  | returned (p : Pid)
  deriving DecidableEq

/-- The queue directory, the processes, and for every job what was built of it. -/
structure State (Pid Qid : Type) where
  job : Qid → Bool
  todo : Qid → Bool
  lock : Qid → Bool
  jobWritten : Qid → Bool
  todoWritten : Qid → Bool
  proc : Pid → Proc Pid Qid
  log : Qid → List (Event Pid)

inductive Action (Pid Qid : Type)
  | writeJob (qid : Qid)
  | writeTodo (qid : Qid)
  | startDaemon (p : Pid)
  | startJobs (p : Pid) (qids : List Qid)
  | readQueue (p : Pid) (queue : List Qid)
  | endDaemon (p : Pid)
  | call (p child : Pid)
  | run (p : Pid)
  | kill (p : Pid)

variable {Pid Qid : Type} [DecidableEq Pid] [DecidableEq Qid]

def State.init : State Pid Qid :=
  { job := fun _ => false, todo := fun _ => false, lock := fun _ => false,
    jobWritten := fun _ => false, todoWritten := fun _ => false,
    proc := fun _ => .absent, log := fun _ => [] }

def State.goto (s : State Pid Qid) (p : Pid) (next : Proc Pid Qid) : State Pid Qid :=
  { s with proc := update s.proc p next }

/-- The job loop after its test of the job file. -/
def work (s : State Pid Qid) (p : Pid) (qid : Qid) (rest : List Qid) : Stage → State Pid Qid
  | .checked =>
    if s.todo qid then
      -- mv is one rename
      { s.goto p (.work qid .locked rest) with
        todo := update s.todo qid false, lock := update s.lock qid true }
    else s.goto p (.exit 1)
  | .locked => s.goto p (.work qid .sourced rest)
  | .sourced =>
    { s.goto p (.work qid .announced rest) with lock := update s.lock qid true }
  | .announced =>
    { s.goto p (.work qid .building rest) with
      log := update s.log qid (s.log qid ++ [.began p]) }
  | .building =>
    { s.goto p (.work qid .returned rest) with
      log := update s.log qid (s.log qid ++ [.returned p]) }
  | .returned =>
    { s.goto p (.work qid .unlocked rest) with lock := update s.lock qid false }
  | .unlocked =>
    { s.goto p (.loop rest) with job := update s.job qid false }

/-- The next step of a process that needs no choice. -/
def run (s : State Pid Qid) (p : Pid) : Option (State Pid Qid) :=
  match s.proc p with
  | .absent => none
  | .daemon => none
  | .scan [] => some (s.goto p .daemon)
  | .scan (qid :: queue) => some (s.goto p (.jobTested (s.job qid) qid queue))
  | .jobTested present qid queue =>
    some (s.goto p (if present && !s.lock qid then .calling qid else .scan queue))
  | .calling _ => none
  | .waiting child =>
    match s.proc child with
    | .exit _ => some (s.goto p .daemon)
    | _ => none
  | .loop [] => some (s.goto p (.exit 0))
  | .loop (qid :: rest) =>
    some (s.goto p (if s.job qid then .work qid .checked rest else .exit 1))
  | .work qid stage rest => some (work s p qid rest stage)
  | .exit _ => none

def step (s : State Pid Qid) : Action Pid Qid → Option (State Pid Qid)
  | .writeJob qid =>
    if s.jobWritten qid then none
    else some { s with
      job := update s.job qid true, jobWritten := update s.jobWritten qid true }
  | .writeTodo qid =>
    if s.todoWritten qid then none
    else some { s with
      todo := update s.todo qid true, todoWritten := update s.todoWritten qid true }
  | .startDaemon p =>
    match s.proc p with
    | .absent => some (s.goto p .daemon)
    | _ => none
  | .startJobs p qids =>
    match s.proc p with
    | .absent => some (s.goto p (.loop qids))
    | _ => none
  | .readQueue p queue =>
    match s.proc p with
    | .daemon => some (s.goto p (.scan queue))
    | _ => none
  | .endDaemon p =>
    match s.proc p with
    | .daemon => some (s.goto p (.exit 0))
    | _ => none
  | .call p child =>
    match s.proc p, s.proc child with
    | .calling qid, .absent => some ((s.goto p (.waiting child)).goto child (.loop [qid]))
    | _, _ => none
  | .run p => run s p
  | .kill p =>
    match s.proc p with
    | .absent => none
    | _ => some (s.goto p (.exit 137))

omit [DecidableEq Qid] in
@[simp]
theorem goto_proc (s : State Pid Qid) (p : Pid) (next : Proc Pid Qid) :
    (s.goto p next).proc = update s.proc p next := rfl

inductive Reachable : State Pid Qid → Prop
  | init : Reachable .init
  | next {s t : State Pid Qid} {a : Action Pid Qid} :
    Reachable s → step s a = some t → Reachable t

theorem Reachable.foldlM (actions : List (Action Pid Qid)) {s t : State Pid Qid} (h : Reachable s)
    (hrun : actions.foldlM step s = some t) : Reachable t := by
  induction actions generalizing s with
  | nil =>
    cases Option.some.inj hrun
    exact h
  | cons a actions ih =>
    rw [List.foldlM_cons, Option.bind_eq_bind, Option.bind_eq_some_iff] at hrun
    obtain ⟨u, hu, hrun⟩ := hrun
    exact ih (h.next hu) hrun

section Invariant

/-- What the builder of a job has logged of it when it is at a stage. -/
def life (p : Pid) : Stage → List (Event Pid)
  | .checked => []
  | .locked => []
  | .sourced => []
  | .announced => []
  | .building => [.began p]
  | .returned => [.began p, .returned p]
  | .unlocked => [.began p, .returned p]

/-- A process has renamed the job's todo file and is not yet done with it. -/
def Owns (s : State Pid Qid) (p : Pid) (qid : Qid) (stage : Stage) : Prop :=
  stage ≠ .checked ∧ ∃ rest, s.proc p = .work qid stage rest

/-- A job waits for its builder, or has had its one builder. -/
inductive Status (s : State Pid Qid) (qid : Qid) : Prop
  | waiting (written : s.todo qid = true → s.todoWritten qid = true) (unlogged : s.log qid = [])
    (free : ∀ p stage, ¬Owns s p qid stage)
  | taken (p : Pid) (written : s.todoWritten qid = true) (gone : s.todo qid = false)
    (logged : ∃ stage, s.log qid = life p stage)
    (owned : ∀ p' stage, Owns s p' qid stage → p' = p ∧ s.log qid = life p stage)

omit [DecidableEq Pid] [DecidableEq Qid] in
theorem status_init (qid : Qid) : Status (State.init : State Pid Qid) qid := by
  refine .waiting (fun h => by simp [State.init] at h) rfl ?_
  rintro p stage ⟨_, rest, h⟩
  simp [State.init] at h

omit [DecidableEq Pid] [DecidableEq Qid] in
/-- Most steps leave the todo file and the log alone and make no process an owner. -/
theorem Status.frame {s t : State Pid Qid} {qid : Qid} (h : Status s qid)
    (htodo : t.todo qid = s.todo qid) (hwritten : t.todoWritten qid = s.todoWritten qid)
    (hlog : t.log qid = s.log qid)
    (howns : ∀ p stage, Owns t p qid stage →
      ∃ before, Owns s p qid before ∧ life p before = life p stage) : Status t qid := by
  cases h with
  | waiting written unlogged free =>
    refine .waiting (by rwa [htodo, hwritten]) (hlog.trans unlogged) ?_
    intro p stage howner
    obtain ⟨before, hbefore, _⟩ := howns p stage howner
    exact free p before hbefore
  | taken p written gone logged owned =>
    refine .taken p (hwritten.trans written) (htodo.trans gone) (by rwa [hlog]) ?_
    intro p' stage howner
    obtain ⟨before, hbefore, hlife⟩ := howns p' stage howner
    obtain ⟨rfl, hp⟩ := owned p' before hbefore
    exact ⟨rfl, by rw [hlog, hp, hlife]⟩

omit [DecidableEq Qid] in
/-- A step to a place outside the job makes nobody an owner. -/
theorem owns_goto {s : State Pid Qid} {p p' : Pid} {next : Proc Pid Qid} {qid : Qid} {stage : Stage}
    (hnext : ∀ rest, next = .work qid stage rest → stage = .checked)
    (h : Owns (s.goto p next) p' qid stage) : Owns s p' qid stage ∧ p' ≠ p := by
  obtain ⟨hstage, rest, hproc⟩ := h
  by_cases hp : p' = p
  · subst hp
    rw [goto_proc, update_self] at hproc
    exact absurd (hnext rest hproc) hstage
  · rw [goto_proc, update_of_ne hp] at hproc
    exact ⟨⟨hstage, rest, hproc⟩, hp⟩

omit [DecidableEq Qid] in
theorem Status.goto {s : State Pid Qid} {qid : Qid} (h : Status s qid) (p : Pid)
    {next : Proc Pid Qid} (hnext : ∀ stage rest, next = .work qid stage rest → stage = .checked) :
    Status (s.goto p next) qid := by
  refine h.frame rfl rfl rfl ?_
  intro p' stage howner
  exact ⟨stage, (owns_goto (fun rest => hnext stage rest) howner).1, rfl⟩

omit [DecidableEq Qid] in
/-- The builder goes on to its next stage and logs what it did. -/
theorem Status.advance {s t : State Pid Qid} {p : Pid} {qid : Qid} {stage next : Stage}
    {rest : List Qid} {done : List (Event Pid)} (h : Status s qid)
    (hproc : s.proc p = .work qid stage rest) (hstage : stage ≠ .checked)
    (htodo : t.todo qid = s.todo qid) (hwritten : t.todoWritten qid = s.todoWritten qid)
    (hnext : t.proc = update s.proc p (.work qid next rest))
    (hlog : t.log qid = s.log qid ++ done) (hlife : life p next = life p stage ++ done) :
    Status t qid := by
  have howner : Owns s p qid stage := ⟨hstage, rest, hproc⟩
  cases h with
  | waiting _ _ free => exact absurd howner (free p stage)
  | taken builder written gone _ owned =>
    obtain ⟨rfl, hbuilder⟩ := owned p stage howner
    have hlog' : t.log qid = life p next := by rw [hlog, hbuilder, hlife]
    refine .taken p (hwritten.trans written) (htodo.trans gone) ⟨next, hlog'⟩ ?_
    rintro p' stage' ⟨hstage', rest', hproc'⟩
    by_cases hp : p' = p
    · subst hp
      rw [hnext, update_self] at hproc'
      cases hproc'
      exact ⟨rfl, hlog'⟩
    · rw [hnext, update_of_ne hp] at hproc'
      exact absurd (owned p' stage' ⟨hstage', rest', hproc'⟩).1 hp

omit [DecidableEq Qid] in
/-- A rename of the todo file succeeds once only. -/
theorem Status.rename {s t : State Pid Qid} {p : Pid} {qid : Qid} {rest : List Qid}
    (h : Status s qid) (hthere : s.todo qid = true) (htodo : t.todo qid = false)
    (hwritten : t.todoWritten qid = s.todoWritten qid)
    (hnext : t.proc = update s.proc p (.work qid .locked rest)) (hlog : t.log qid = s.log qid) :
    Status t qid := by
  cases h with
  | taken _ _ gone _ _ => simp [gone] at hthere
  | waiting written unlogged free =>
    refine .taken p (hwritten.trans (written hthere)) htodo ⟨.locked, hlog.trans unlogged⟩ ?_
    rintro p' stage ⟨hstage, rest', hproc⟩
    by_cases hp : p' = p
    · subst hp
      rw [hnext, update_self] at hproc
      cases hproc
      exact ⟨rfl, hlog.trans unlogged⟩
    · rw [hnext, update_of_ne hp] at hproc
      exact absurd ⟨hstage, rest', hproc⟩ (free p' stage)

omit [DecidableEq Qid] in
/-- What a process does for one job does not touch another one. -/
theorem Status.other {s t : State Pid Qid} {p : Pid} {qid qid' : Qid} {stage : Stage}
    {rest : List Qid} (h : Status s qid') (hne : qid' ≠ qid)
    (htodo : t.todo qid' = s.todo qid') (hwritten : t.todoWritten qid' = s.todoWritten qid')
    (hnext : t.proc = update s.proc p (.work qid stage rest)) (hlog : t.log qid' = s.log qid') :
    Status t qid' := by
  refine h.frame htodo hwritten hlog ?_
  rintro p' stage' ⟨hstage', rest', hproc⟩
  by_cases hp : p' = p
  · subst hp
    rw [hnext, update_self] at hproc
    cases hproc
    exact absurd rfl hne
  · rw [hnext, update_of_ne hp] at hproc
    exact ⟨stage', ⟨hstage', rest', hproc⟩, rfl⟩

theorem status_work {s : State Pid Qid} {p : Pid} {qid : Qid} {stage : Stage} {rest : List Qid}
    (hproc : s.proc p = .work qid stage rest) {qid' : Qid} (h : Status s qid') :
    Status (work s p qid rest stage) qid' := by
  have hloop (rest : List Qid) (stage : Stage) (rest' : List Qid) :
      (Proc.loop rest : Proc Pid Qid) = .work qid' stage rest' → stage = .checked := by simp
  by_cases hne : qid' = qid
  · subst hne
    cases stage with
    | checked =>
      rw [work]
      split
      next hthere => exact h.rename hthere (update_self ..) rfl rfl rfl
      next => exact h.goto p (by simp)
    | locked => exact h.advance hproc (by simp) rfl rfl rfl (List.append_nil _).symm rfl
    | sourced => exact h.advance hproc (by simp) rfl rfl rfl (List.append_nil _).symm rfl
    | announced => exact h.advance hproc (by simp) rfl rfl rfl (update_self ..) rfl
    | building => exact h.advance hproc (by simp) rfl rfl rfl (update_self ..) rfl
    | returned => exact h.advance hproc (by simp) rfl rfl rfl (List.append_nil _).symm rfl
    | unlocked =>
      refine (h.goto p (hloop rest)).frame rfl rfl rfl ?_
      exact fun _ stage howner => ⟨stage, howner, rfl⟩
  · cases stage with
    | checked =>
      rw [work]
      split
      next => exact h.other hne (update_of_ne hne ..) rfl rfl rfl
      next => exact h.goto p (by simp)
    | locked => exact h.other hne rfl rfl rfl rfl
    | sourced => exact h.other hne rfl rfl rfl rfl
    | announced => exact h.other hne rfl rfl rfl (update_of_ne hne ..)
    | building => exact h.other hne rfl rfl rfl (update_of_ne hne ..)
    | returned => exact h.other hne rfl rfl rfl rfl
    | unlocked =>
      refine (h.goto p (hloop rest)).frame rfl rfl rfl ?_
      exact fun _ stage howner => ⟨stage, howner, rfl⟩

theorem run_cases {s t : State Pid Qid} {p : Pid} (hrun : run s p = some t) :
    (∃ next, t = s.goto p next ∧ ∀ qid stage rest, next = .work qid stage rest → stage = .checked) ∨
      ∃ qid stage rest, s.proc p = .work qid stage rest ∧ t = work s p qid rest stage := by
  cases hproc : s.proc p with
  | absent => simp [run, hproc] at hrun
  | daemon => simp [run, hproc] at hrun
  | calling qid => simp [run, hproc] at hrun
  | exit status => simp [run, hproc] at hrun
  | scan queue =>
    cases queue <;> simp only [run, hproc] at hrun <;> cases hrun <;>
      exact .inl ⟨_, rfl, by simp⟩
  | jobTested present qid queue =>
    simp only [run, hproc] at hrun
    cases hrun
    exact .inl ⟨_, rfl, by split <;> simp⟩
  | waiting child =>
    cases hchild : s.proc child with
    | exit status =>
      simp only [run, hproc, hchild] at hrun
      cases hrun
      exact .inl ⟨_, rfl, by simp⟩
    | _ => simp [run, hproc, hchild] at hrun
  | loop qids =>
    cases qids with
    | nil =>
      simp only [run, hproc] at hrun
      cases hrun
      exact .inl ⟨_, rfl, by simp⟩
    | cons qid rest =>
      simp only [run, hproc] at hrun
      cases hrun
      refine .inl ⟨_, rfl, ?_⟩
      intro qid' stage rest' hwork
      split at hwork
      next => cases hwork; rfl
      next => cases hwork
  | work qid stage rest =>
    simp only [run, hproc] at hrun
    cases hrun
    exact .inr ⟨qid, stage, rest, rfl, rfl⟩

/-- Besides the creator's writes and the job loop, every step only moves processes. -/
theorem step_cases {s t : State Pid Qid} {a : Action Pid Qid} (h : step s a = some t) :
    (∃ qid, t = { s with job := update s.job qid true, jobWritten := update s.jobWritten qid true }) ∨
    (∃ qid, s.todoWritten qid = false ∧
      t = { s with todo := update s.todo qid true, todoWritten := update s.todoWritten qid true }) ∨
    (∃ p next, t = s.goto p next ∧ ∀ qid stage rest, next = .work qid stage rest → stage = .checked) ∨
    (∃ p child qid, t = (s.goto p (.waiting child)).goto child (.loop [qid])) ∨
    ∃ p qid stage rest, a = .run p ∧ s.proc p = .work qid stage rest ∧ t = work s p qid rest stage := by
  cases a with
  | writeJob qid =>
    simp only [step, Option.ite_none_left_eq_some] at h
    exact .inl ⟨qid, (Option.some.inj h.2).symm⟩
  | writeTodo qid =>
    simp only [step, Option.ite_none_left_eq_some] at h
    exact .inr (.inl ⟨qid, Bool.eq_false_iff.mpr h.1, (Option.some.inj h.2).symm⟩)
  | startDaemon p =>
    cases hproc : s.proc p <;> simp only [step, hproc] at h <;> cases h
    exact .inr (.inr (.inl ⟨p, _, rfl, by simp⟩))
  | startJobs p qids =>
    cases hproc : s.proc p <;> simp only [step, hproc] at h <;> cases h
    exact .inr (.inr (.inl ⟨p, _, rfl, by simp⟩))
  | readQueue p queue =>
    cases hproc : s.proc p <;> simp only [step, hproc] at h <;> cases h
    exact .inr (.inr (.inl ⟨p, _, rfl, by simp⟩))
  | endDaemon p =>
    cases hproc : s.proc p <;> simp only [step, hproc] at h <;> cases h
    exact .inr (.inr (.inl ⟨p, _, rfl, by simp⟩))
  | kill p =>
    cases hproc : s.proc p <;> simp only [step, hproc] at h <;> cases h <;>
      exact .inr (.inr (.inl ⟨p, _, rfl, by simp⟩))
  | call p child =>
    cases hproc : s.proc p <;> cases hchild : s.proc child <;>
      simp only [step, hproc, hchild] at h <;> cases h
    exact .inr (.inr (.inr (.inl ⟨p, child, _, rfl⟩)))
  | run p =>
    rcases run_cases h with ⟨next, ht, hnext⟩ | ⟨qid, stage, rest, hproc, ht⟩
    · exact .inr (.inr (.inl ⟨p, next, ht, hnext⟩))
    · exact .inr (.inr (.inr (.inr ⟨p, qid, stage, rest, rfl, hproc, ht⟩)))

omit [DecidableEq Pid] in
/-- The creator writes a todo file only while nobody has taken the job. -/
theorem Status.written {s : State Pid Qid} {qid qid' : Qid} (h : Status s qid')
    (hnew : s.todoWritten qid = false) :
    Status { s with todo := update s.todo qid true, todoWritten := update s.todoWritten qid true }
      qid' := by
  by_cases hne : qid' = qid
  · subst hne
    cases h with
    | waiting _ unlogged free => exact .waiting (fun _ => update_self ..) unlogged free
    | taken _ written _ _ _ => simp [hnew] at written
  · refine h.frame (update_of_ne hne ..) (update_of_ne hne ..) rfl ?_
    exact fun _ stage howner => ⟨stage, howner, rfl⟩

theorem status_step {s t : State Pid Qid} {a : Action Pid Qid} (hstep : step s a = some t)
    {qid : Qid} (h : Status s qid) : Status t qid := by
  rcases step_cases hstep with ⟨_, rfl⟩ | ⟨qid', hnew, rfl⟩ | ⟨p, next, rfl, hnext⟩ |
    ⟨p, child, qid', rfl⟩ | ⟨p, qid', stage, rest, _, hproc, rfl⟩
  · exact h.frame rfl rfl rfl fun _ stage howner => ⟨stage, howner, rfl⟩
  · exact h.written hnew
  · exact h.goto p fun stage rest => hnext qid stage rest
  · exact (h.goto p (by simp)).goto child (by simp)
  · exact status_work hproc h

theorem status_reachable {s : State Pid Qid} (h : Reachable s) (qid : Qid) : Status s qid := by
  induction h with
  | init => exact status_init qid
  | next _ hstep ih => exact status_step hstep ih

end Invariant

section Exclusion

omit [DecidableEq Pid] in
theorem mem_life {p p' : Pid} {stage : Stage} (h : Event.began p' ∈ life p stage) : p' = p := by
  cases stage with
  | building => simpa [life] using h
  | returned => simpa [life] using h
  | unlocked => simpa [life] using h
  | _ => simp [life] at h

theorem count_life (p p' : Pid) (stage : Stage) : (life p stage).count (.began p') ≤ 1 := by
  cases stage <;> simp [life, List.count_cons] <;> split <;> simp

/-- Only the builder that has returned removes the lock and the job file. -/
theorem removed_work {s : State Pid Qid} {p : Pid} {qid qid' : Qid} {stage : Stage} {rest : List Qid}
    (h : s.job qid = true ∧ (work s p qid' rest stage).job qid = false ∨
      s.lock qid = true ∧ (work s p qid' rest stage).lock qid = false) :
    qid = qid' ∧ life p stage = [.began p, .returned p] := by
  by_cases hne : qid = qid'
  · refine ⟨hne, ?_⟩
    subst hne
    cases stage with
    | returned => rfl
    | unlocked => rfl
    | checked =>
      rw [work] at h
      split at h <;> simp_all [State.goto]
    | _ => simp_all [work, State.goto]
  · cases stage with
    | checked =>
      rw [work] at h
      split at h <;> simp_all [State.goto]
    | _ => simp_all [work, State.goto]

/-- A step that takes a file of a job away is its builder's, after the build. -/
theorem removed_step {s t : State Pid Qid} {a : Action Pid Qid} {qid : Qid} (h : Status s qid)
    (hstep : step s a = some t)
    (hgone : s.job qid = true ∧ t.job qid = false ∨ s.lock qid = true ∧ t.lock qid = false) :
    ∃ p, a = .run p ∧ s.log qid = [.began p, .returned p] := by
  rcases step_cases hstep with ⟨qid', rfl⟩ | ⟨_, _, rfl⟩ | ⟨_, _, rfl, _⟩ | ⟨_, _, _, rfl⟩ |
    ⟨p, qid', stage, rest, ha, hproc, rfl⟩
  · by_cases hne : qid = qid'
    · subst hne
      simp at hgone
    · simp_all
  · simp_all
  · simp_all [State.goto]
  · simp_all [State.goto]
  · obtain ⟨rfl, hlife⟩ := removed_work hgone
    have howner : Owns s p qid stage := ⟨by rintro rfl; simp [life] at hlife, rest, hproc⟩
    cases h with
    | waiting _ _ free => exact absurd howner (free p stage)
    | taken builder _ _ _ owned =>
      obtain ⟨rfl, hlog⟩ := owned p stage howner
      exact ⟨p, ha, hlog.trans hlife⟩

/-- A job is built at most once, and its files go only when its builder has built it. -/
theorem job_built_once {s : State Pid Qid} (h : Reachable s) (qid : Qid) :
    (∀ p p', Event.began p ∈ s.log qid → Event.began p' ∈ s.log qid → p = p') ∧
    (∀ p, (s.log qid).count (.began p) ≤ 1) ∧
    ∀ a t, step s a = some t →
      s.job qid = true ∧ t.job qid = false ∨ s.lock qid = true ∧ t.lock qid = false →
      ∃ p, a = .run p ∧ .began p ∈ s.log qid ∧ .returned p ∈ s.log qid := by
  have hstatus := status_reachable h qid
  refine ⟨?_, ?_, ?_⟩
  · intro p p' hp hp'
    cases hstatus with
    | waiting _ unlogged _ => simp [unlogged] at hp
    | taken builder _ _ logged _ =>
      obtain ⟨stage, hlog⟩ := logged
      rw [hlog] at hp hp'
      exact (mem_life hp).trans (mem_life hp').symm
  · intro p
    cases hstatus with
    | waiting _ unlogged _ => simp [unlogged]
    | taken builder _ _ logged _ =>
      obtain ⟨stage, hlog⟩ := logged
      rw [hlog]
      exact count_life builder p stage
  · intro a t hstep hgone
    obtain ⟨p, ha, hlog⟩ := removed_step hstatus hstep hgone
    exact ⟨p, ha, by simp [hlog], by simp [hlog]⟩

/-- A daemon and a one-shot call work on job 7; the daemon's child gets it. -/
theorem job_built_once_sample :
    ∃ s t : State Nat Nat, step s (.run 1) = some t ∧ s.job 7 = true ∧ t.job 7 = false ∧
      ∃ p, (.run 1 : Action Nat Nat) = .run p ∧ .began p ∈ s.log 7 ∧ .returned p ∈ s.log 7 := by
  have hrun : Reachable _ := Reachable.foldlM
    [.writeJob 7, .writeTodo 7, .startDaemon 0, .startJobs 2 [7], .readQueue 0 [7], .run 0, .run 0,
      .call 0 1, .run 1, .run 2, .run 1, .run 2, .run 1, .run 1, .run 1, .run 1, .run 1]
    .init rfl
  exact ⟨_, _, rfl, rfl, rfl, (job_built_once hrun 7).2.2 _ _ rfl (.inl ⟨rfl, rfl⟩)⟩

end Exclusion

end T2SDE.BuildJob
