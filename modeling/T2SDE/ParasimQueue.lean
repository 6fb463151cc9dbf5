import T2SDE.Parasim

namespace T2SDE.Parasim

open Text

section Lines

variable {sep : Char → Bool} {l : PkgLine} {ws : List Str}

theorem tokens_words (hsep : sep ' ' = true) (hws : ∀ w ∈ ws, w ≠ [] ∧ ∀ c ∈ w, sep c = false) :
    tokens sep (joined ' ' ws) = ws :=
  tokens_intercalate hsep hws

theorem text_joined (l : PkgLine) : l.text = joined ' ' (l.status.text :: (l.fields ++ ["0".toList])) := by
  rw [joined_eq, l.text_fields]

/-- The line of a job in the queue. -/
theorem queueLine_joined {s : Nat} (hon : l.status = .on) : queueLine s "0".toList "60".toList l.text =
    joined ' ' (digits s :: "0".toList :: (l.fields ++ ["60".toList])) := by
  obtain ⟨rest, hrest⟩ : ∃ rest, l.fields.flatMap (' ' :: ·) = ' ' :: rest := ⟨_, rfl⟩
  have htext : l.text = 'X' :: ' ' :: (rest ++ " 0".toList) := by
    rw [l.text_fields, hon, List.flatMap_append, hrest]
    rfl
  have hstart : Awk.subStart "X ".toList ("0".toList ++ " ".toList) l.text =
    ("0 ".toList ++ rest) ++ " 0".toList := by
    rw [htext, Awk.subStart, if_pos ⟨rest ++ " 0".toList, rfl⟩]
    rfl
  have hend : Awk.subEnd " 0".toList (" ".toList ++ "60".toList) (("0 ".toList ++ rest) ++ " 0".toList) =
      ("0 ".toList ++ rest) ++ " 60".toList := by
    rw [Awk.subEnd, if_pos (List.suffix_append _ _), List.length_append, Nat.add_sub_cancel, List.take_left]
    rfl
  rw [queueLine, hstart, hend, joined_eq, List.flatMap_cons, List.flatMap_append, hrest]
  simp

theorem digits_word : ∀ s < 10, digits s ≠ [] ∧ (digits s).all (fun c => !Awk.space c) = true ∧
    '.' ∉ digits s ∧ '-' ∉ digits s := by
  decide

/-- The fields of a line of the queue, for awk and for the simulation. -/
theorem queue_words (l : PkgLine) {s : Nat} (hs : s < 10) :
    ∀ w ∈ digits s :: "0".toList :: (l.fields ++ ["60".toList]), w ≠ [] ∧ ∀ c ∈ w, Awk.space c = false := by
  intro w hw
  rcases List.mem_cons.mp hw with rfl | hw
  · obtain ⟨hne, hall, -⟩ := digits_word s hs
    exact ⟨hne, fun c hc => by simpa using List.all_eq_true.mp hall c hc⟩
  rcases List.mem_cons.mp hw with rfl | hw
  · exact ⟨by decide, by simp [Awk.space]⟩
  rcases List.mem_append.mp hw with hw | hw
  · exact l.fields_word w hw
  · rw [List.mem_singleton.mp hw]
    exact ⟨by decide, by simp [Awk.space]⟩

theorem split_queueLine {s : Nat} (hs : s < 10) (hon : l.status = .on) :
    split (queueLine s "0".toList "60".toList l.text) =
    digits s :: "0".toList :: (l.fields ++ ["60".toList]) := by
  have hwords := queue_words l hs
  have hhead : (joined ' ' (digits s :: "0".toList :: (l.fields ++ ["60".toList]))).head?.any Awk.space =
    false := by
    obtain ⟨hne, hfree⟩ := hwords (digits s) List.mem_cons_self
    obtain ⟨c, t, heq⟩ := List.exists_cons_of_ne_nil hne
    rw [joined_eq, heq, List.cons_append, List.head?_cons, Option.any_some]
    exact hfree c (heq ▸ List.mem_cons_self)
  rw [queueLine_joined hon, split, hhead]
  exact tokens_words rfl hwords

theorem lastField_queueLine {s : Nat} (hs : s < 10) (hon : l.status = .on) :
    increment (lastField (queueLine s "0".toList "60".toList l.text)) = 61 := by
  have hlast : lastField (queueLine s "0".toList "60".toList l.text) = "60".toList := by
    rw [lastField, split_queueLine hs hon]
    simp only [← List.cons_append, List.getLast_append_singleton]
  rw [hlast]
  decide

theorem split_text (l : PkgLine) : Awk.split l.text = l.status.text :: (l.fields ++ ["0".toList]) := by
  have hblank : ∀ c, Awk.space c = false → Awk.blank c = false := by
    intro c hc
    simp only [Awk.space, Bool.or_eq_false_iff] at hc
    simp [Awk.blank, hc]
  rw [text_joined]
  refine tokens_words rfl fun w hw => ?_
  rcases List.mem_cons.mp hw with rfl | hw
  · cases l.status <;> exact ⟨by decide, by simp [Selection.text, Awk.blank]⟩
  rcases List.mem_append.mp hw with hw | hw
  · exact ⟨(l.fields_word w hw).1, fun c hc => hblank c ((l.fields_word w hw).2 c hc)⟩
  · rw [List.mem_singleton.mp hw]
    exact ⟨by decide, by simp [Awk.blank]⟩

end Lines

section Tree

variable {c : Setup} {j k : Job} {files : Files} {ext : String}

theorem field_status (l : PkgLine) : Awk.field (Awk.split l.text) 1 = l.status.text := by
  rw [split_text]
  rfl

theorem field_name (l : PkgLine) : Awk.field (Awk.split l.text) 5 = l.name := by
  rw [split_text]
  rfl

theorem length_split (l : PkgLine) : 5 < (Awk.split l.text).length := by
  rw [split_text]
  simp only [PkgLine.fields, List.length_append, List.length_cons]
  omega

theorem names_text (lines : List PkgLine) :
    ((lines.map PkgLine.text).map fun line => Awk.field (Awk.split line) 5) = lines.map PkgLine.name := by
  induction lines with
  | nil => rfl
  | cons l lines ih => rw [List.map_cons, List.map_cons, List.map_cons, ih, field_name]

def Setup.packages (c : Setup) : PackagesFile where
  lines := c.packagesFile
  distinct := by
    rw [Setup.packagesFile, names_text]
    exact c.distinct
  named := by
    intro line hline _
    obtain ⟨l, hl, rfl⟩ := List.mem_map.mp hline
    rw [field_name]
    exact ⟨length_split l, c.named l hl⟩

/-- The simulation builds without `-nobrokendeps`. -/
def Setup.tree (c : Setup) : BuildTree := ⟨c.logdir, c.logdir_plain, c.packages, false⟩

theorem Setup.queue_eq (c : Setup) (files : Files) :
    c.queue files = jobTexts (createPkgQueue (c.tree.env false files)) := rfl

/-- `$qid` of a job. -/
def qid (j : Job) : Str := digits j.stagelevel ++ "-".toList ++ j.package

theorem job_line (hj : j ∈ c.tree.jobs) : ∃ l ∈ c.lines,
    l.status = .on ∧ j.pkgline = l.text ∧ j.package = l.name := by
  obtain ⟨-, hline, henabled⟩ := mem_schedule.mp hj
  obtain ⟨l, hl, htext⟩ := List.mem_map.mp hline
  rw [← htext, enabled, field_status, Bool.and_eq_true, beq_iff_eq] at henabled
  refine ⟨l, hl, ?_, htext.symm, ?_⟩
  · cases hstatus : l.status with
    | on => rfl
    | off =>
      rw [hstatus] at henabled
      exact absurd henabled.1 (by decide)
  · rw [Job.package, ← htext, field_name]

/-- What the simulation reads from the line of a job. -/
theorem line_read (hj : j ∈ c.tree.jobs) :
    (split j.line).getD 0 [] ++ "-".toList ++ (split j.line).getD 5 [] = qid j ∧
    increment (lastField j.line) = 61 := by
  obtain ⟨hstage, -⟩ := BuildTree.job_named hj
  obtain ⟨l, -, hon, hline, hname⟩ := job_line hj
  rw [Job.line, hline, split_queueLine hstage hon, qid, hname]
  exact ⟨rfl, lastField_queueLine hstage hon⟩

theorem qid_injective (hj : j ∈ c.tree.jobs) (hk : k ∈ c.tree.jobs) (h : qid j = qid k) : j = k := by
  have hone : ∀ n < 10, (digits n).length = 1 := by decide
  have hdigits : ∀ m < 10, ∀ n < 10, digits m = digits n → m = n := by decide
  obtain ⟨hjs, -⟩ := BuildTree.job_named hj
  obtain ⟨hks, -⟩ := BuildTree.job_named hk
  rw [qid, qid, List.append_assoc, List.append_assoc] at h
  obtain ⟨hstage, hrest⟩ := List.append_inj h (by rw [hone _ hjs, hone _ hks])
  exact BuildTree.job_ext hj hk (hdigits _ hjs _ hks hstage) (List.append_cancel_left hrest)

theorem file_eq (j : Job) (ext : String) :
    c.tree.file j ext = c.logdir ++ "/".toList ++ qid j ++ ".".toList ++ ext.toList := by
  simp only [BuildTree.file, logFile, qid, List.append_assoc]
  rfl

theorem isGlobbed_own (j : Job) (hext : '/' ∉ ext.toList) :
    isGlobbed c.logdir (qid j) (c.tree.file j ext) = true := by
  rw [file_eq, isGlobbed, List.drop_left, Bool.and_eq_true]
  exact ⟨List.isPrefixOf_iff_prefix.mpr (List.prefix_append _ _), by simpa using hext⟩

/-- The extensions of the files of a job. -/
def extensions : List String := ["out", "log", "err"]

/-- `rm -f` for a job removes no file of another. -/
def OwnOnly (c : Setup) (job : Str) (files : Files) : Prop :=
  ∀ k ∈ c.tree.jobs, qid k ≠ job → ∀ ext ∈ extensions, isGlobbed c.logdir job (c.tree.file k ext) = true →
    files (c.tree.file k ext) = false

theorem extension_spec : ∀ ext ∈ extensions, ext.toList.length = 3 ∧ '/' ∉ ext.toList := by decide

theorem refresh_own (hj : j ∈ c.tree.jobs) {e : String} (he : e ∈ extensions) (hext : ext ∈ extensions) :
    refresh c.logdir (qid j) ext files (c.tree.file j e) = decide (e = ext) := by
  rw [refresh, ← file_eq]
  by_cases heq : e = ext
  · rw [heq, Files.set_same, decide_eq_true rfl]
  · have hne : c.tree.file j e ≠ c.tree.file j ext := fun h =>
      heq (c.tree.file_injective hj hj (extension_spec e he).1 (extension_spec ext hext).1 h).2
    rw [Files.set_other _ hne, isGlobbed_own j (extension_spec e he).2, decide_eq_false heq]
    simp

theorem refresh_other (hj : j ∈ c.tree.jobs) (hk : k ∈ c.tree.jobs) (hne : k ≠ j)
    (hown : OwnOnly c (qid j) files) {e : String}
    (he : e ∈ extensions) (hext : ext ∈ extensions) :
    refresh c.logdir (qid j) ext files (c.tree.file k e) = files (c.tree.file k e) := by
  have hpath : c.tree.file k e ≠ c.tree.file j ext := fun h =>
    hne (c.tree.file_injective hk hj (extension_spec e he).1 (extension_spec ext hext).1 h).1
  rw [refresh, ← file_eq, Files.set_other _ hpath]
  by_cases hglob : isGlobbed c.logdir (qid j) (c.tree.file k e) = true
  · rw [hown k hk (fun h => hne (qid_injective hk hj h)) e he hglob, Bool.false_and]
  · rw [Bool.not_eq_true] at hglob
    rw [hglob, Bool.not_false, Bool.and_true]

end Tree

end T2SDE.Parasim
