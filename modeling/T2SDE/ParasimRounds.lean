import T2SDE.ParasimQueue
import T2SDE.QueueRuns

namespace T2SDE.Parasim

open Text

section States

inductive Status
  | waiting
  | running
  | done
  deriving DecidableEq

variable {c : Setup} {id : Nat} {sim : Sim} {s : Config} {j k : Job} {st : Status}

/-- What the files, the table and the log have of a job. -/
structure Has (c : Setup) (sim : Sim) (j : Job) (st : Status) : Prop where
  out : sim.files (c.tree.file j "out") = decide (st = .running)
  log : sim.files (c.tree.file j "log") = decide (st = .done)
  err : sim.files (c.tree.file j "err") = false
  table : qid j ∈ sim.jobs.map Prod.fst ↔ st = .running
  created : sim.log.count (.created (qid j)) = if st = .waiting then 0 else 1
  finished : sim.log.count (.finished (qid j)) = if st = .done then 1 else 0

/-- In the loops: a job whose time has come is still to be looked at, a line that is still to be
read is that of a job that waits, and where no job runs the queue is that of the files. -/
def InPhase (c : Setup) (s : Config) : Prop :=
  match s.phase with
  | .finishing qids =>
    qids.Nodup ∧ qids ⊆ s.sim.jobs.map Prod.fst ∧ ∀ entry ∈ s.sim.jobs, entry.2 ≤ s.sim.now → entry.1 ∈ qids
  | .starting queue => (∀ entry ∈ s.sim.jobs, s.sim.now < entry.2) ∧ queue.Nodup ∧
      (∀ line ∈ queue, ∃ j ∈ c.tree.jobs, line = j.line ∧ Has c s.sim j .waiting) ∧
      (s.sim.jobs = [] → queue.Perm (c.queue s.sim.files))
  | .over => s.sim.jobs = [] ∧ c.queue s.sim.files = []

structure Inv (c : Setup) (id : Nat) (s : Config) : Prop where
  free : 0 ≤ s.sim.freejobs
  total : s.sim.freejobs + s.sim.runningjobs = id
  running : s.sim.runningjobs = s.sim.jobs.length
  keys : (s.sim.jobs.map Prod.fst).Nodup
  known : ∀ key ∈ s.sim.jobs.map Prod.fst, ∃ j ∈ c.tree.jobs, qid j = key
  status : ∀ j ∈ c.tree.jobs, ∃ st, Has c s.sim j st
  phase : InPhase c s

theorem Has.unique {st' : Status} (h : Has c sim j st) (h' : Has c sim j st') : st = st' := by
  have hout := h.out.symm.trans h'.out
  have hlog := h.log.symm.trans h'.log
  cases st <;> cases st' <;> simp_all

theorem initial_inv (c : Setup) (id : Nat) : Inv c id (initial id) where
  free := Int.natCast_nonneg id
  total := Int.add_zero _
  running := rfl
  keys := List.nodup_nil
  known := fun _ h => absurd h List.not_mem_nil
  status := fun j _ => ⟨.waiting, rfl, rfl, rfl, by simp [initial], rfl, rfl⟩
  phase := ⟨List.nodup_nil, List.nil_subset _, fun _ h => absurd h List.not_mem_nil⟩

/-- The job whose files the next step removes. -/
def removes : Config → Option Str
  | ⟨.finishing (qid :: _), sim⟩ => if (sim.jobs.lookup qid).getD 0 > sim.now then none else some qid
  | ⟨.starting (line :: _), sim⟩ =>
    if sim.freejobs > 0 then some ((split line).getD 0 [] ++ "-".toList ++ (split line).getD 5 []) else none
  | _ => none

/-- The next step removes no file of another job. -/
def Clean (c : Setup) (s : Config) : Prop := ∀ job ∈ removes s, OwnOnly c job s.sim.files

/-- A step for one job leaves the others as they are. -/
theorem Has.other {ext : String} {jobs : List (Str × Nat)} {event : Event} (h : Has c sim k st)
    (hj : j ∈ c.tree.jobs)
    (hk : k ∈ c.tree.jobs) (hne : k ≠ j) (hown : OwnOnly c (qid j) sim.files) (hext : ext ∈ extensions)
    (hjobs : qid k ∈ jobs.map Prod.fst ↔ qid k ∈ sim.jobs.map Prod.fst)
    (hevent : event = .created (qid j) ∨ event = .finished (qid j)) {sim' : Sim}
    (hsim : sim'.files = refresh c.logdir (qid j) ext sim.files ∧ sim'.jobs = jobs ∧
    sim'.log = event :: sim.log) :
    Has c sim' k st := by
  obtain ⟨hfiles, rfl, hlog⟩ := hsim
  have hqid : qid j ≠ qid k := fun heq => hne (qid_injective hk hj heq.symm)
  have hfile : ∀ e ∈ extensions, sim'.files (c.tree.file k e) = sim.files (c.tree.file k e) := by
    intro e he
    rw [hfiles]
    exact refresh_other hj hk hne hown he hext
  have hcount : ∀ told : Event, told = .created (qid k) ∨ told = .finished (qid k) →
    sim'.log.count told = sim.log.count told := by
    rintro told htold
    rw [hlog, List.count_cons_of_ne]
    rcases hevent with rfl | rfl <;> rcases htold with rfl | rfl <;> simp [hqid]
  constructor
  · rw [hfile "out" (by decide), h.out]
  · rw [hfile "log" (by decide), h.log]
  · rw [hfile "err" (by decide), h.err]
  · rw [hjobs, h.table]
  · rw [hcount _ (.inl rfl), h.created]
  · rw [hcount _ (.inr rfl), h.finished]

theorem mem_filter_keys {job key : Str} {jobs : List (Str × Nat)} :
    key ∈ (jobs.filter fun entry => entry.1 ≠ job).map Prod.fst ↔ key ∈ jobs.map Prod.fst ∧ key ≠ job := by
  rw [List.mem_map, List.mem_map]
  constructor
  · rintro ⟨entry, hentry, rfl⟩
    obtain ⟨hmem, hne⟩ := List.mem_filter.mp hentry
    exact ⟨⟨entry, hmem, rfl⟩, of_decide_eq_true hne⟩
  · rintro ⟨⟨entry, hmem, rfl⟩, hne⟩
    exact ⟨entry, List.mem_filter.mpr ⟨hmem, decide_eq_true hne⟩, rfl⟩

/-- A job that runs is finished. -/
theorem Has.finish (h : Has c sim j .running) (hj : j ∈ c.tree.jobs) :
    Has c (finish c.logdir (qid j) sim) j .done := by
  constructor
  · exact (refresh_own hj (by decide) (by decide)).trans (by decide)
  · exact (refresh_own hj (by decide) (by decide)).trans (by decide)
  · exact (refresh_own hj (by decide) (by decide)).trans (by decide)
  · exact iff_of_false (fun hmem => (mem_filter_keys.mp hmem).2 rfl) (by decide)
  · exact (List.count_cons_of_ne (by simp)).trans h.created
  · exact List.count_cons_self.trans (by rw [h.finished]; rfl)

theorem Has.finish_other (h : Has c sim k st) (hj : j ∈ c.tree.jobs) (hk : k ∈ c.tree.jobs) (hne : k ≠ j)
    (hown : OwnOnly c (qid j) sim.files) : Has c (Parasim.finish c.logdir (qid j) sim) k st := by
  refine h.other hj hk hne hown (by decide : "log" ∈ extensions) ?_ (.inr rfl) ⟨rfl, rfl, rfl⟩
  exact mem_filter_keys.trans (and_iff_left fun heq => hne (qid_injective hk hj heq))

/-- A job that waits is started. -/
theorem Has.start (h : Has c sim j .waiting) (hj : j ∈ c.tree.jobs) :
    Has c (start c.logdir j.line sim) j .running := by
  obtain ⟨hqid, -⟩ := line_read hj
  have hfiles : (Parasim.start c.logdir j.line sim).files = refresh c.logdir (qid j) "out" sim.files := by
    simp only [Parasim.start, hqid]
  have hlog : (Parasim.start c.logdir j.line sim).log = .created (qid j) :: sim.log := by
    simp only [Parasim.start, hqid]
  constructor
  · rw [hfiles]
    exact (refresh_own hj (by decide) (by decide)).trans (by decide)
  · rw [hfiles]
    exact (refresh_own hj (by decide) (by decide)).trans (by decide)
  · rw [hfiles]
    exact (refresh_own hj (by decide) (by decide)).trans (by decide)
  · refine iff_of_true ?_ rfl
    simp only [Parasim.start, hqid, List.map_append, List.map_cons, List.map_nil]
    exact List.mem_append_right _ List.mem_cons_self
  · rw [hlog]
    exact List.count_cons_self.trans (by rw [h.created]; rfl)
  · rw [hlog]
    exact (List.count_cons_of_ne (by simp)).trans h.finished

theorem Has.start_other (h : Has c sim k st) (hj : j ∈ c.tree.jobs) (hk : k ∈ c.tree.jobs) (hne : k ≠ j)
    (hown : OwnOnly c (qid j) sim.files) : Has c (Parasim.start c.logdir j.line sim) k st := by
  obtain ⟨hqid, -⟩ := line_read hj
  refine h.other hj hk hne hown (by decide : "out" ∈ extensions) ?_ (.inl rfl)
    ⟨by simp only [Parasim.start, hqid], rfl,
    by simp only [Parasim.start, hqid]⟩
  have hdiffer : qid k ≠ qid j := fun heq => hne (qid_injective hk hj heq)
  simp only [Parasim.start, hqid, List.map_append, List.map_cons, List.map_nil, List.mem_append,
    mem_filter_keys,
    List.mem_singleton]
  simp [hdiffer]

end States

section Steps

variable {c : Setup} {id : Nat} {sim : Sim} {s : Config} {j k : Job} {jobs : List (Str × Nat)} {job : Str}
    {time : Nat}

theorem least_spec (jobs : List (Str × Nat)) (m : Nat) :
    ∃ n : Nat, jobs.foldl (fun least job => if least = -1 ∨ least > job.2 then (job.2 : Int) else least)
    (m : Int) = n ∧ n ≤ m ∧
      (∀ entry ∈ jobs, n ≤ entry.2) ∧ (n = m ∨ ∃ entry ∈ jobs, n = entry.2) := by
  induction jobs generalizing m with
  | nil => exact ⟨m, rfl, le_refl m, by simp, .inl rfl⟩
  | cons job jobs ih =>
    have hstep : (if (m : Int) = -1 ∨ (m : Int) > job.2 then (job.2 : Int) else m) =
      ((min m job.2 : Nat) : Int) := by
      split <;> omega
    obtain ⟨n, hfold, hle, hall, hfrom⟩ := ih (min m job.2)
    refine ⟨n, ?_, by omega, ?_, ?_⟩
    · rw [List.foldl_cons, hstep, hfold]
    · intro entry hentry
      rcases List.mem_cons.mp hentry with rfl | hentry
      · omega
      · exact hall entry hentry
    · rcases hfrom with hmin | ⟨entry, hentry, heq⟩
      · by_cases hm : m ≤ job.2
        · exact .inl (by omega)
        · exact .inr ⟨job, List.mem_cons_self, by omega⟩
      · exact .inr ⟨entry, List.mem_cons_of_mem _ hentry, heq⟩

/-- The next point in time is that of the job that is ready first. -/
theorem earliest_spec (jobs : List (Str × Nat)) :
    jobs = [] ∧ earliest jobs = -1 ∨
      ∃ n : Nat, earliest jobs = n ∧ (∀ entry ∈ jobs, n ≤ entry.2) ∧ ∃ entry ∈ jobs, n = entry.2 := by
  cases jobs with
  | nil => exact .inl ⟨rfl, rfl⟩
  | cons job jobs =>
    right
    obtain ⟨n, hfold, hle, hall, hfrom⟩ := least_spec jobs job.2
    refine ⟨n, hfold, ?_, ?_⟩
    · intro entry hentry
      rcases List.mem_cons.mp hentry with rfl | hentry
      · exact hle
      · exact hall entry hentry
    · rcases hfrom with heq | ⟨entry, hentry, heq⟩
      · exact ⟨job, List.mem_cons_self, heq⟩
      · exact ⟨entry, List.mem_cons_of_mem _ hentry, heq⟩

theorem lookup_of_mem (hkeys : (jobs.map Prod.fst).Nodup) (h : (job, time) ∈ jobs) :
    jobs.lookup job = some time := by
  induction jobs with
  | nil => exact absurd h List.not_mem_nil
  | cons entry jobs ih =>
    obtain ⟨hnew, hrest⟩ := List.nodup_cons.mp hkeys
    rcases List.mem_cons.mp h with rfl | h
    · exact List.lookup_cons_self
    · have hne : job ≠ entry.1 := fun heq => hnew (heq ▸ List.mem_map_of_mem (f := Prod.fst) h)
      rw [List.lookup_cons, beq_false_of_ne hne]
      exact ih hrest h

theorem length_filter_keys (hkeys : (jobs.map Prod.fst).Nodup) (h : job ∈ jobs.map Prod.fst) :
    (jobs.filter fun entry => entry.1 ≠ job).length + 1 = jobs.length := by
  have hmap : ((jobs.filter fun entry => entry.1 ≠ job).map Prod.fst) = (jobs.map Prod.fst).erase job := by
    rw [hkeys.erase_eq_filter, List.filter_map]
    congr 1
    exact List.filter_congr fun entry _ => by by_cases heq : entry.1 = job <;> simp [bne, heq]
  have hlength := congrArg List.length hmap
  have hpos := List.length_pos_of_mem h
  rw [List.length_map, List.length_erase_of_mem h, List.length_map] at hlength
  rw [List.length_map] at hpos
  omega

/-- A job that is not due stays. -/
theorem Inv.skip {qids : List Str} (h : Inv c id ⟨.finishing (job :: qids), sim⟩)
    (hdue : (sim.jobs.lookup job).getD 0 > sim.now) :
    Inv c id ⟨.finishing qids, sim⟩ := by
  obtain ⟨hnodup, hsub, hdues⟩ := h.phase
  refine { h with phase := ⟨(List.nodup_cons.mp hnodup).2, fun key hkey =>
    hsub (List.mem_cons_of_mem _ hkey), ?_⟩ }
  intro entry hentry hle
  rcases List.mem_cons.mp (hdues entry hentry hle) with heq | hmem
  · have hlookup : sim.jobs.lookup job = some entry.2 := lookup_of_mem h.keys (heq ▸ hentry)
    rw [hlookup, Option.getD_some] at hdue
    exact absurd hle (Nat.not_le.mpr hdue)
  · exact hmem

theorem Inv.finish {qids : List Str} (h : Inv c id ⟨.finishing (job :: qids), sim⟩)
    (hown : OwnOnly c job sim.files) :
    Inv c id ⟨.finishing qids, Parasim.finish c.logdir job sim⟩ := by
  obtain ⟨hnodup, hsub, hdues⟩ := h.phase
  have hkey : job ∈ sim.jobs.map Prod.fst := hsub List.mem_cons_self
  obtain ⟨j, hj, rfl⟩ := h.known job hkey
  have hlength : (sim.jobs.filter fun entry => entry.1 ≠ qid j).length + 1 = sim.jobs.length :=
    length_filter_keys h.keys hkey
  have hrunning : sim.runningjobs = sim.jobs.length := h.running
  have htotal : sim.freejobs + sim.runningjobs = id := h.total
  have hfree : 0 ≤ sim.freejobs := h.free
  refine ⟨?_, ?_, ?_, ?_, ?_, ?_, ?_⟩
  · show 0 ≤ sim.freejobs + 1
    exact Int.le_add_one hfree
  · show sim.freejobs + 1 + (sim.runningjobs - 1) = id
    omega
  · show sim.runningjobs - 1 = (sim.jobs.filter fun entry => entry.1 ≠ qid j).length
    omega
  · exact h.keys.sublist (List.filter_sublist.map Prod.fst)
  · exact fun key hmem => h.known key (mem_filter_keys.mp hmem).1
  · intro k hk
    obtain ⟨st, hst⟩ := h.status k hk
    by_cases hkj : k = j
    · subst hkj
      have hrun : st = .running := hst.table.mp hkey
      exact ⟨.done, (hrun ▸ hst).finish hj⟩
    · exact ⟨st, hst.finish_other hj hk hkj hown⟩
  · obtain ⟨hnew, hrest⟩ := List.nodup_cons.mp hnodup
    refine ⟨hrest, fun key hmem => ?_, fun entry hentry hle => ?_⟩
    · exact mem_filter_keys.mpr ⟨hsub (List.mem_cons_of_mem _ hmem), fun heq => hnew (heq ▸ hmem)⟩
    · obtain ⟨hmem, hne⟩ := List.mem_filter.mp hentry
      exact (List.mem_cons.mp (hdues entry hmem hle)).resolve_left (of_decide_eq_true hne)

theorem emissions_sublist (env : QueueEnv) (before rest : List Job) :
    (emissions env before rest).Sublist rest := by
  induction rest generalizing before with
  | nil => exact List.Sublist.slnil
  | cons j rest ih =>
    rw [emissions]
    split
    · exact (ih _).cons_cons j
    · exact (ih _).cons j

/-- No line is in the queue twice, and each is that of a job that waits. -/
theorem queue_spec (hstatus : ∀ j ∈ c.tree.jobs, ∃ st, Has c sim j st) :
    (c.queue sim.files).Nodup ∧ ∀ line ∈ c.queue sim.files, ∃ j ∈ c.tree.jobs,
    line = j.line ∧ Has c sim j .waiting := by
  rw [Setup.queue_eq]
  constructor
  · have hsub := emissions_sublist (c.tree.env false sim.files) [] c.tree.jobs
    rw [createPkgQueue_jobs]
    refine List.Nodup.map_on (fun j hj k hk heq => line_injective (hsub.subset hj) (hsub.subset hk) heq) ?_
    exact hsub.nodup (BuildTree.jobs_nodup _)
  · intro line hline
    obtain ⟨before, j, after, hschedule, rfl, -⟩ := mem_createPkgQueue hline
    have hj : j ∈ c.tree.jobs := by
      show j ∈ schedule (c.tree.env false sim.files).packagesFile
      rw [hschedule]
      exact List.mem_append_right _ List.mem_cons_self
    obtain ⟨hundone, hout⟩ := idle_of_printed hj hline
    obtain ⟨hlog, -⟩ := Bool.or_eq_false_iff.mp hundone
    obtain ⟨st, hst⟩ := hstatus j hj
    refine ⟨j, hj, rfl, ?_⟩
    cases st with
    | waiting => exact hst
    | running => exact absurd (hst.out.symm.trans hout) (by decide)
    | done => exact absurd (hst.log.symm.trans hlog) (by decide)

/-- The queue is read when no job is due. -/
theorem Inv.read (h : Inv c id ⟨.finishing [], sim⟩) :
    Inv c id ⟨.starting (c.sort (c.queue sim.files)), sim⟩ := by
  obtain ⟨-, -, hdues⟩ := h.phase
  obtain ⟨hnodup, hlines⟩ := queue_spec h.status
  have hperm := c.sort_perm (c.queue sim.files)
  refine { h with phase := ⟨fun entry hentry => ?_, hperm.nodup_iff.mpr hnodup, fun line hline => ?_,
    fun _ => hperm⟩ }
  · by_contra hle
    exact absurd (hdues entry hentry (Nat.not_lt.mp hle)) List.not_mem_nil
  · exact hlines line (hperm.mem_iff.mp hline)

theorem Inv.start {line : Str} {queue : List Str} (h : Inv c id ⟨.starting (line :: queue), sim⟩)
    (hpos : sim.freejobs > 0)
    (hown : OwnOnly c ((split line).getD 0 [] ++ "-".toList ++ (split line).getD 5 []) sim.files) :
    Inv c id ⟨.starting queue, Parasim.start c.logdir line sim⟩ := by
  obtain ⟨htimes, hnodup, hlines, -⟩ := h.phase
  obtain ⟨hnew, hrest⟩ := List.nodup_cons.mp hnodup
  obtain ⟨j, hj, rfl, hwaits⟩ := hlines line List.mem_cons_self
  obtain ⟨hqid, htime⟩ := line_read hj
  rw [hqid] at hown
  have hkey : qid j ∉ sim.jobs.map Prod.fst := fun hmem => absurd (hwaits.table.mp hmem) (by decide)
  have hjobs : (Parasim.start c.logdir j.line sim).jobs = sim.jobs ++ [(qid j, sim.now + 61)] := by
    have hfilter : (sim.jobs.filter fun entry => entry.1 ≠ qid j) = sim.jobs :=
      List.filter_eq_self.mpr fun entry hentry => decide_eq_true fun heq =>
        hkey (heq ▸ List.mem_map_of_mem hentry)
    simp only [Parasim.start, hqid, htime, hfilter]
  have hrunning : sim.runningjobs = sim.jobs.length := h.running
  have htotal : sim.freejobs + sim.runningjobs = id := h.total
  refine ⟨?_, ?_, ?_, ?_, ?_, ?_, ?_⟩
  · show 0 ≤ sim.freejobs - 1
    omega
  · show sim.freejobs - 1 + (sim.runningjobs + 1) = id
    omega
  · show sim.runningjobs + 1 = (Parasim.start c.logdir j.line sim).jobs.length
    rw [hjobs, List.length_append, hrunning]
    rfl
  · show ((Parasim.start c.logdir j.line sim).jobs.map Prod.fst).Nodup
    rw [hjobs, List.map_append]
    exact List.Nodup.append h.keys (List.nodup_singleton _) (by simpa using hkey)
  · intro key hmem
    rw [hjobs, List.map_append] at hmem
    rcases List.mem_append.mp hmem with hmem | hmem
    · exact h.known key hmem
    · exact ⟨j, hj, (List.mem_singleton.mp hmem).symm⟩
  · intro k hk
    by_cases hkj : k = j
    · subst hkj
      exact ⟨.running, hwaits.start hj⟩
    · obtain ⟨st, hst⟩ := h.status k hk
      exact ⟨st, hst.start_other hj hk hkj hown⟩
  · refine ⟨fun entry hentry => ?_, hrest, fun line hline => ?_, fun hnil => ?_⟩
    · rw [hjobs] at hentry
      rcases List.mem_append.mp hentry with hentry | hentry
      · exact htimes entry hentry
      · rw [List.mem_singleton.mp hentry]
        exact Nat.lt_add_of_pos_right (by decide)
    · obtain ⟨k, hk, rfl, hwaitsk⟩ := hlines line (List.mem_cons_of_mem _ hline)
      have hkj : k ≠ j := fun heq => hnew (heq ▸ hline)
      exact ⟨k, hk, rfl, hwaitsk.start_other hj hk hkj hown⟩
    · rw [hjobs] at hnil
      exact absurd hnil (by simp)

/-- At the end of a round that leaves nothing to start. -/
theorem Inv.advance {queue : List Str} (h : Inv c id ⟨.starting queue, sim⟩)
    (hnothing : sim.jobs = [] → queue = []) :
    Inv c id (c.advance sim) := by
  obtain ⟨htimes, -, -, hqueue⟩ := h.phase
  rw [Setup.advance]
  rcases earliest_spec sim.jobs with ⟨hnil, hearliest⟩ | ⟨n, hearliest, hall, hfrom⟩
  · rw [if_pos hearliest]
    have hempty : (c.queue sim.files).Perm [] := hnothing hnil ▸ (hqueue hnil).symm
    exact { h with phase := ⟨hnil, hempty.eq_nil⟩ }
  · rw [if_neg (by omega)]
    have hperm := c.keys_perm sim.log (sim.jobs.map Prod.fst)
    refine ⟨h.free, h.total, h.running, h.keys, h.known, fun j hj => ?_, ?_⟩
    · obtain ⟨st, hst⟩ := h.status j hj
      exact ⟨st, hst.out, hst.log, hst.err, hst.table, hst.created, hst.finished⟩
    · exact ⟨hperm.nodup_iff.mpr h.keys, hperm.subset, fun entry hentry _ =>
        hperm.mem_iff.mpr (List.mem_map_of_mem hentry)⟩

/-- Without a running job all of them are free. -/
theorem Inv.busy {phase : Phase} (hid : 1 ≤ id) (h : Inv c id ⟨phase, sim⟩) (hfree : ¬sim.freejobs > 0) :
    sim.jobs ≠ [] := by
  intro hnil
  have hrunning : sim.runningjobs = sim.jobs.length := h.running
  have htotal : sim.freejobs + sim.runningjobs = id := h.total
  rw [hrunning, hnil, List.length_nil] at htotal
  omega

theorem Inv.step (hid : 1 ≤ id) (h : Inv c id s) (hclean : Clean c s) : Inv c id (c.step s) := by
  obtain ⟨phase, sim⟩ := s
  match phase with
  | .finishing (job :: qids) =>
    rw [Setup.step]
    by_cases hdue : (sim.jobs.lookup job).getD 0 > sim.now
    · rw [if_pos hdue]
      exact h.skip hdue
    · rw [if_neg hdue]
      exact h.finish (hclean job (by simp only [removes, if_neg hdue, Option.mem_some]))
  | .finishing [] => exact h.read
  | .starting (line :: queue) =>
    rw [Setup.step]
    by_cases hfree : sim.freejobs > 0
    · rw [if_pos hfree]
      exact h.start hfree (hclean _ (by simp only [removes, if_pos hfree, Option.mem_some]))
    · rw [if_neg hfree]
      exact h.advance fun hnil => absurd hnil (h.busy hid hfree)
  | .starting [] => exact h.advance fun _ => rfl
  | .over => exact h

end Steps

end T2SDE.Parasim
