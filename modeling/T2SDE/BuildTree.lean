import T2SDE.QueuePaths
import T2SDE.QueueProgress
import Mathlib.Data.List.Nodup

namespace T2SDE

open Text Awk

abbrev Files := Str → Bool

def Files.set (files : Files) (path : Str) (present : Bool) : Files :=
  fun other => if other = path then present else files other

@[simp] theorem Files.set_same (files : Files) (path : Str) (b : Bool) : files.set path b path = b := by
  simp [set]

theorem Files.set_other (files : Files) {path other : Str} (h : other ≠ path) (b : Bool) :
    files.set path b other = files other := by
  simp [set, h]

def noFiles : Files := fun _ => false

/-- What a build of a target starts from. -/
structure BuildTree where
  logdir : Str
  logdir_plain : '<' ∉ logdir
  packages : PackagesFile
  nobrokendeps : Bool

/-- `Create-PkgQueue` called on the tree while the given files exist. -/
def BuildTree.env (t : BuildTree) (single : Bool) (files : Files) : QueueEnv :=
  { single, debug := false, nobrokendeps := t.nobrokendeps, logdir := t.logdir,
    packagesFile := t.packages.lines, readable := files }

def BuildTree.jobs (t : BuildTree) : List Job := schedule t.packages.lines

/-- `var/adm/logs/$stagelevel-$pkg_name.$ext` as the build scripts write it. -/
def logFile (logdir stagelevel pkgName : Str) (ext : String) : Str :=
  logdir ++ "/".toList ++ stagelevel ++ "-".toList ++ pkgName ++ ".".toList ++ ext.toList

def BuildTree.file (t : BuildTree) (j : Job) (ext : String) : Str :=
  logFile t.logdir (digits j.stagelevel) j.package ext

theorem BuildTree.job_named {t : BuildTree} {j : Job} (hj : j ∈ t.jobs) :
    j.stagelevel < 10 ∧ 5 < (split j.pkgline).length ∧ PackageName j.package ∧
      enabled j.stagelevel j.pkgline = true := by
  obtain ⟨hs, hline, he⟩ := mem_schedule.mp hj
  have hx : field (split j.pkgline) 1 = "X".toList := by
    simp only [enabled, Bool.and_eq_true, beq_iff_eq] at he
    exact he.1
  obtain ⟨hlen, hname⟩ := t.packages.named j.pkgline hline hx
  exact ⟨hs, hlen, hname, he⟩

theorem BuildTree.env_path {t : BuildTree} {j : Job} (hj : j ∈ t.jobs) (single : Bool)
    (files : Files) (ext : String) (he : '&' ∉ ext.toList) :
    (t.env single files).path j ext = t.file j ext := by
  obtain ⟨hs, _, hname, _⟩ := job_named hj
  exact logPath_eq t.logdir_plain hs hname he

def BuildTree.done (t : BuildTree) (files : Files) (j : Job) : Bool :=
  files (t.file j "log") || files (t.file j "err")

theorem BuildTree.env_finished {t : BuildTree} {j : Job} (hj : j ∈ t.jobs) (single : Bool)
    (files : Files) : (t.env single files).finished j = t.done files j := by
  simp only [QueueEnv.finished, t.env_path hj single files "log" (by decide),
    t.env_path hj single files "err" (by decide)]
  rfl

theorem BuildTree.env_out {t : BuildTree} {j : Job} (hj : j ∈ t.jobs) (single : Bool)
    (files : Files) :
    (t.env single files).readable ((t.env single files).path j "out") = files (t.file j "out") := by
  rw [t.env_path hj single files "out" (by decide)]
  rfl

theorem BuildTree.job_ext {t : BuildTree} {j k : Job} (hj : j ∈ t.jobs) (hk : k ∈ t.jobs)
    (hs : j.stagelevel = k.stagelevel) (hp : j.package = k.package) : j = k := by
  obtain ⟨_, hjl, _⟩ := mem_schedule.mp hj
  obtain ⟨_, hkl, _⟩ := mem_schedule.mp hk
  have hline : j.pkgline = k.pkgline := List.inj_on_of_nodup_map t.packages.distinct hjl hkl hp
  cases j
  cases k
  simp_all

theorem BuildTree.file_injective {t : BuildTree} {j k : Job} (hj : j ∈ t.jobs) (hk : k ∈ t.jobs)
    {e f : String} (he : e.toList.length = 3) (hf : f.toList.length = 3)
    (h : t.file j e = t.file k f) : j = k ∧ e = f := by
  obtain ⟨hs, hp, hef⟩ := literalPath_injective (job_named hj).1 (job_named hk).1 he hf h
  exact ⟨job_ext hj hk hs hp, String.toList_injective hef⟩

theorem BuildTree.jobs_nodup (t : BuildTree) : t.jobs.Nodup := by
  have hlines : t.packages.lines.Nodup := List.Nodup.of_map _ t.packages.distinct
  unfold jobs schedule
  apply List.nodup_flatMap.mpr
  constructor
  · intro s _
    exact (hlines.filter _).map fun a b hab => congrArg Job.pkgline hab
  · apply List.pairwise_lt_range.imp
    intro s u hsu j hj hk
    obtain ⟨_, _, rfl⟩ := List.mem_map.mp hj
    obtain ⟨_, _, he⟩ := List.mem_map.mp hk
    have := congrArg Job.stagelevel he
    simp only at this
    omega

def samplePackages : PackagesFile where
  lines := ["X -----5---- 100.100 base awk 1 / base/tool 0".toList,
    "X -----5---- 100.200 base sed 1 / base/tool 0".toList]
  distinct := by decide +kernel
  named := by decide +kernel

def sampleTree (nobrokendeps : Bool) : BuildTree where
  logdir := "logs".toList
  logdir_plain := by decide
  packages := samplePackages
  nobrokendeps := nobrokendeps

end T2SDE
