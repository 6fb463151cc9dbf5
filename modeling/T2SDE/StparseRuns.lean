import Mathlib.Data.List.Nodup
import T2SDE.FlStparse

namespace T2SDE.FlStparse

open Text PathName FileTree Scanf
open FlWrapper (fgets)

section Table

variable {procs : List Proc} {live others : List Live} {l : Live} {dirs : Nat → Loc} {pid : Int}

def used (procs : List Proc) : List Proc := procs.filter (·.pid ≠ 0)

/-- The entry of a process, which is in one of these directories by the trace. -/
def entry (dirs : Nat → Loc) (l : Live) : Proc := ⟨l.pid, absolute (dirs l.pid)⟩

/-- The table has one entry for each process. -/
structure Table (procs : List Proc) (live : List Live) (dirs : Nat → Loc) : Prop where
  size : procs.length = maxProcs
  entries : (used procs).Perm (live.map (entry dirs))
  distinct : (live.map (·.pid)).Nodup
  pids : ∀ l ∈ live, IsPid l.pid

theorem exists_putproc (new : Proc) (h : ∃ q ∈ procs, q.pid = pid) :
    ∃ q rest procs', q.pid = pid ∧ procs.Perm (q :: rest) ∧ putproc pid new procs = some procs' ∧
      procs'.Perm (new :: rest) := by
  induction procs with
  | nil => simp at h
  | cons o procs ih =>
    by_cases ho : o.pid = pid
    · exact ⟨o, procs, new :: procs, ho, .refl _, by rw [putproc, if_pos ho], .refl _⟩
    · have htail : ∃ q ∈ procs, q.pid = pid := by
        obtain ⟨q, hq, hpid⟩ := h
        rcases List.mem_cons.mp hq with rfl | hq
        · exact absurd hpid ho
        · exact ⟨q, hq, hpid⟩
      obtain ⟨q, rest, procs', hpid, hperm, hput, hperm'⟩ := ih htail
      refine ⟨q, o :: rest, o :: procs', hpid, ?_, by rw [putproc, if_neg ho, hput, Option.map_some], ?_⟩
      · exact (hperm.cons o).trans (.swap q o rest)
      · exact (hperm'.cons o).trans (.swap new o rest)

theorem used_cons {q : Proc} (h : q.pid ≠ 0) (procs : List Proc) : used (q :: procs) = q :: used procs :=
  List.filter_cons_of_pos (by simpa using h)

theorem used_cons_free {q : Proc} (h : q.pid = 0) (procs : List Proc) : used (q :: procs) = used procs :=
  List.filter_cons_of_neg (by simpa using h)

theorem Table.perm (h : Table procs live dirs) {live' : List Live} (hperm : live.Perm live') :
    Table procs live' dirs where
  size := h.size
  entries := h.entries.trans (hperm.map _)
  distinct := (hperm.map _).nodup_iff.mp h.distinct
  pids := fun l hl => h.pids l (hperm.mem_iff.mpr hl)

theorem Table.pid_ne (h : Table procs live dirs) (hl : l ∈ live) : (l.pid : Int) ≠ 0 := by
  have hpos := (h.pids l hl).1
  omega

/-- An entry with the pid of a process is that of the process. -/
theorem Table.eq_entry (h : Table procs live dirs) (hl : l ∈ live) {q : Proc} (hq : q ∈ procs)
    (hpid : q.pid = l.pid) :
    q = entry dirs l := by
  have hne : q.pid ≠ 0 := hpid ▸ h.pid_ne hl
  have hmem : q ∈ live.map (entry dirs) := h.entries.mem_iff.mp (List.mem_filter.mpr ⟨hq, by simpa using hne⟩)
  obtain ⟨o, -, rfl⟩ := List.mem_map.mp hmem
  have hsame : o.pid = l.pid := by
    rw [entry] at hpid
    exact Int.ofNat.inj hpid
  rw [entry, entry, hsame]

theorem Table.mem_entry (h : Table procs live dirs) (hl : l ∈ live) : entry dirs l ∈ procs :=
  (List.mem_filter.mp (h.entries.mem_iff.mpr (List.mem_map_of_mem hl))).1

theorem Table.getproc_eq (h : Table procs live dirs) (hl : l ∈ live) :
    getproc l.pid procs = some (entry dirs l) := by
  have hmem := h.mem_entry hl
  cases hget : getproc l.pid procs with
  | none =>
    have hne := List.find?_eq_none.mp hget _ hmem
    exact absurd rfl (show ¬(entry dirs l).pid = l.pid by simpa using hne)
  | some q =>
    have hpid : q.pid = l.pid := by simpa using List.find?_some hget
    rw [h.eq_entry hl (List.mem_of_find?_eq_some hget) hpid]

/-- While processes are fewer than entries, one is free. -/
theorem Table.exists_free (h : Table procs live dirs) (hroom : live.length < maxProcs) :
    ∃ q ∈ procs, q.pid = 0 := by
  by_contra hnone
  have hall : used procs = procs := List.filter_eq_self.mpr fun q hq => by
    simpa using fun h0 => hnone ⟨q, hq, h0⟩
  have hlength := h.entries.length_eq
  rw [hall, h.size, List.length_map] at hlength
  omega

theorem Table.newproc_eq (h : Table procs live dirs) (hroom : live.length < maxProcs) (l : Live) {q : Nat}
    (hq : IsPid q) (hfresh : ∀ o ∈ live, o.pid ≠ q) :
    ∃ procs', newproc q (entry dirs l).cwd procs = some procs' ∧
      Table procs' ({ l with pid := q } :: live) (Function.update dirs q (dirs l.pid)) := by
  obtain ⟨free, rest, procs', hfree, hperm, hput, hperm'⟩ :=
    exists_putproc ⟨q, (entry dirs l).cwd⟩ (h.exists_free hroom)
  have hne : (⟨q, (entry dirs l).cwd⟩ : Proc).pid ≠ 0 := by
    have hpos := hq.1
    change (q : Int) ≠ 0
    omega
  have hold : (used rest).Perm (live.map (entry dirs)) := by
    have hused := hperm.filter (fun q : Proc => decide (q.pid ≠ 0))
    rw [← used, ← used, used_cons_free hfree] at hused
    exact hused.symm.trans h.entries
  have hsame : live.map (entry (Function.update dirs q (dirs l.pid))) = live.map (entry dirs) := by
    apply List.map_congr_left
    intro o ho
    rw [entry, entry, Function.update_of_ne (hfresh o ho)]
  refine ⟨procs', hput, ?_, ?_, ?_, ?_⟩
  · rw [hperm'.length_eq, ← h.size, hperm.length_eq, List.length_cons, List.length_cons]
  · have hused := hperm'.filter (fun q : Proc => decide (q.pid ≠ 0))
    rw [← used, ← used, used_cons hne] at hused
    rw [List.map_cons, hsame, entry, Function.update_self]
    exact hused.trans (hold.cons _)
  · rw [List.map_cons, List.nodup_cons]
    refine ⟨?_, h.distinct⟩
    rintro hmem
    obtain ⟨o, ho, hpid⟩ := List.mem_map.mp hmem
    exact hfresh o ho hpid
  · rintro o ho
    rcases List.mem_cons.mp ho with rfl | ho
    · exact hq
    · exact h.pids o ho

/-- The entry of a process is overwritten, and those of the others stay. -/
theorem Table.putproc_eq (h : Table procs (l :: others) dirs) (new : Proc) :
    ∃ rest procs', putproc l.pid new procs = some procs' ∧ procs'.length = maxProcs ∧
      procs'.Perm (new :: rest) ∧ (used rest).Perm (others.map (entry dirs)) := by
  have hl : l ∈ l :: others := List.mem_cons_self
  obtain ⟨q, rest, procs', hpid, hperm, hput, hperm'⟩ := exists_putproc new ⟨_, h.mem_entry hl, rfl⟩
  have hq : q = entry dirs l := h.eq_entry hl (hperm.mem_iff.mpr List.mem_cons_self) hpid
  refine ⟨rest, procs', hput, ?_, hperm', ?_⟩
  · rw [hperm'.length_eq, ← h.size, hperm.length_eq, List.length_cons, List.length_cons]
  · have hused := hperm.filter (fun q : Proc => decide (q.pid ≠ 0))
    rw [← used, ← used, hq, used_cons (h.pid_ne hl)] at hused
    exact (hused.symm.trans h.entries).cons_inv

theorem Table.rest_ne (h : Table procs (l :: others) dirs) {o : Live} (ho : o ∈ others) : o.pid ≠ l.pid := by
  have hdistinct := h.distinct
  rw [List.map_cons, List.nodup_cons] at hdistinct
  exact fun heq => hdistinct.1 (List.mem_map.mpr ⟨o, ho, heq⟩)

theorem Table.setproc_eq (h : Table procs (l :: others) dirs) (dir cwd : Loc) (known : Bool) :
    ∃ procs', setproc l.pid (absolute dir) procs = some procs' ∧
      Table procs' (⟨l.pid, cwd, known⟩ :: others) (Function.update dirs l.pid dir) := by
  obtain ⟨rest, procs', hput, hsize, hperm, hrest⟩ := h.putproc_eq ⟨l.pid, absolute dir⟩
  have hne : (⟨l.pid, absolute dir⟩ : Proc).pid ≠ 0 := h.pid_ne List.mem_cons_self
  have hsame : others.map (entry (Function.update dirs l.pid dir)) = others.map (entry dirs) := by
    apply List.map_congr_left
    intro o ho
    rw [entry, entry, Function.update_of_ne (h.rest_ne ho)]
  refine ⟨procs', hput, hsize, ?_, h.distinct, ?_⟩
  · have hused := hperm.filter (fun q : Proc => decide (q.pid ≠ 0))
    rw [← used, ← used, used_cons hne] at hused
    rw [List.map_cons, hsame, entry, Function.update_self]
    exact hused.trans (hrest.cons _)
  · rintro o ho
    rcases List.mem_cons.mp ho with rfl | ho
    · exact h.pids l List.mem_cons_self
    · exact h.pids o (List.mem_cons_of_mem _ ho)

theorem Table.freeproc_eq (h : Table procs (l :: others) dirs) :
    ∃ procs', freeproc l.pid procs = some procs' ∧ Table procs' others dirs := by
  obtain ⟨rest, procs', hput, hsize, hperm, hrest⟩ := h.putproc_eq ⟨0, []⟩
  have hdistinct := h.distinct
  rw [List.map_cons, List.nodup_cons] at hdistinct
  refine ⟨procs', hput, hsize, ?_, hdistinct.2, fun o ho => h.pids o (List.mem_cons_of_mem _ ho)⟩
  have hused := hperm.filter (fun q : Proc => decide (q.pid ≠ 0))
  rw [← used, ← used, used_cons_free rfl] at hused
  exact hused.trans hrest

/-- The entries in use, counted. -/
theorem Table.count_eq (h : Table procs live dirs) {p : Int} (hp : p ≠ 0) :
    (procs.map (·.pid)).count p = if ∃ l ∈ live, (l.pid : Int) = p then 1 else 0 := by
  have hused : (procs.map (·.pid)).count p = ((used procs).map (·.pid)).count p := by
    clear h
    induction procs with
    | nil => rfl
    | cons q procs ih =>
      by_cases hq : q.pid = 0
      · rw [used_cons_free hq, List.map_cons, List.count_cons_of_ne (by simpa [hq] using hp.symm), ih]
      · rw [used_cons hq, List.map_cons, List.map_cons, List.count_cons, List.count_cons, ih]
  have hpids : ((used procs).map (·.pid)).Perm (live.map fun l => (l.pid : Int)) := by
    have hmap := h.entries.map (·.pid)
    rwa [List.map_map] at hmap
  have hnodup : (live.map fun l => (l.pid : Int)).Nodup := by
    have hcast := List.Nodup.map (f := fun p : Nat => (p : Int)) (fun a b => Int.ofNat.inj) h.distinct
    rwa [List.map_map] at hcast
  rw [hused, hpids.count_eq]
  split_ifs with hex
  · obtain ⟨l, hl, rfl⟩ := hex
    exact List.count_eq_one_of_mem hnodup (List.mem_map.mpr ⟨l, hl, rfl⟩)
  · apply List.count_eq_zero_of_not_mem
    rintro hmem
    obtain ⟨l, hl, hpid⟩ := List.mem_map.mp hmem
    exact hex ⟨l, hl, hpid⟩

end Table
section Reading

variable {line more s : Str} {m n : Nat}

theorem reads_nil (n : Nat) : reads n [] = [] := by
  cases n with
  | zero => rfl
  | succ n => rw [reads, if_pos rfl]

/-- As many reads as there are characters are enough. -/
theorem reads_enough (hm : s.length ≤ m) (hn : s.length ≤ n) : reads m s = reads n s := by
  induction m generalizing n s with
  | zero =>
    obtain rfl : s = [] := List.eq_nil_of_length_eq_zero (Nat.le_zero.mp hm)
    rw [reads_nil, reads_nil]
  | succ m ih =>
    by_cases hs : s = []
    · rw [hs, reads_nil, reads_nil]
    · have hrest := FlWrapper.fgets_rest_length (by decide : 0 < 1023) hs
      obtain ⟨k, rfl⟩ := Nat.exists_eq_add_of_le' (Nat.le_trans (List.length_pos_iff.mpr hs) hn)
      have hless : (fgets 1023 s).2.length ≤ m := by omega
      have hless' : (fgets 1023 s).2.length ≤ k := by omega
      rw [reads, reads, if_neg hs, if_neg hs, ih hless hless']

/-- A read never goes beyond the end of a line. -/
theorem reads_line (hline : '\n' ∉ line) (hn : line.length + 1 + more.length ≤ n) :
    reads n (line ++ '\n' :: more) = reads (line.length + 1) (line ++ ['\n']) ++ reads more.length more := by
  induction n generalizing line with
  | zero => omega
  | succ n ih =>
    have hne : ∀ rest, line ++ '\n' :: rest ≠ [] := by simp
    by_cases hshort : line.length < 1023
    · have hget : ∀ rest, fgets 1023 (line ++ '\n' :: rest) = (line ++ ['\n'], rest) :=
        fun rest => FlWrapper.fgets_line hline hshort
      rw [reads, if_neg (hne more), hget more, reads, if_neg (hne []), hget [], reads_nil,
        reads_enough (n := more.length) (by omega) (Nat.le_refl _)]
      rfl
    · have hsplit := List.take_append_drop 1023 line
      have hlength : (line.take 1023).length = 1023 := List.length_take_of_le (Nat.le_of_not_lt hshort)
      have htake : '\n' ∉ line.take 1023 := fun h => hline (List.mem_of_mem_take h)
      have hdrop : '\n' ∉ line.drop 1023 := fun h => hline (List.mem_of_mem_drop h)
      have hget : ∀ rest, fgets 1023 (line ++ '\n' :: rest) =
        (line.take 1023, line.drop 1023 ++ '\n' :: rest) := by
        intro rest
        have hfull : fgets 1023 (line.take 1023 ++ (line.drop 1023 ++ '\n' :: rest)) = _ :=
          FlWrapper.fgets_full htake hlength
        rwa [← List.append_assoc, hsplit] at hfull
      have hless : (line.drop 1023).length + 1023 = line.length := by
        rw [List.length_drop]
        omega
      have henough : reads line.length (line.drop 1023 ++ ['\n']) =
          reads ((line.drop 1023).length + 1) (line.drop 1023 ++ ['\n']) := by
        have htotal : (line.drop 1023 ++ ['\n']).length = (line.drop 1023).length + 1 := by simp
        exact reads_enough (by omega) (by omega)
      rw [reads, if_neg (hne more), hget, reads, if_neg (hne []), hget, ih hdrop (by omega), henough]
      rfl

theorem reads_short (hline : '\n' ∉ line) (hshort : line.length < 1023) :
    reads (line.length + 1) (line ++ ['\n']) = [line ++ ['\n']] := by
  have hne : line ++ ['\n'] ≠ [] := by simp
  rw [reads, if_neg hne, FlWrapper.fgets_line hline hshort, reads_nil]

/-- A read of a line has all of a short text at its beginning. -/
theorem fgets_front {front : Str} (hfront : '\n' ∉ front) (hn : front.length ≤ n) (s : Str) :
    (fgets n (front ++ s)).1 = front ++ (fgets (n - front.length) s).1 := by
  induction front generalizing n with
  | nil => rfl
  | cons c front ih =>
    obtain ⟨n, rfl⟩ := Nat.exists_eq_add_of_le' (Nat.le_trans (Nat.le_add_left 1 front.length) hn)
    rw [List.mem_cons, not_or] at hfront
    rw [List.length_cons] at hn ⊢
    rw [List.cons_append, fgets, if_neg (Ne.symm hfront.1), ih hfront.2 (by omega), Nat.add_sub_add_right]
    rfl

end Reading

section Simulation

variable {t : Tree} {w w' : World} {s : State} {dirs : Nat → Loc} {e : Event} {l : Live} {others : List Live}

/-- What is known of the state behind the lines of a run. -/
structure Sim (t : Tree) (w : World) (s : State) (dirs : Nat → Loc) : Prop where
  table : Table s.procs w.live dirs
  own : t.entry s.own = some .dir
  dir : ∀ l ∈ w.live, t.entry (dirs l.pid) = some .dir
  known : ∀ l ∈ w.live, l.known = true → dirs l.pid = l.cwd
  wlog : List.SublistForall₂ Prefixed s.wlog w.ops
  rlog : List.SublistForall₂ Prefixed s.rlog w.ops
  forking : w.forking = []

theorem sublistForall₂_append {α β : Type} {R : α → β → Prop} {as as' : List α} {bs bs' : List β}
    (h : List.SublistForall₂ R as bs) (h' : List.SublistForall₂ R as' bs') :
    List.SublistForall₂ R (as ++ as') (bs ++ bs') := by
  rw [List.sublistForall₂_iff] at *
  obtain ⟨cs, hcs, hsub⟩ := h
  obtain ⟨cs', hcs', hsub'⟩ := h'
  exact ⟨cs ++ cs', List.rel_append hcs hcs', hsub.append hsub'⟩

theorem sim_fork (hsim : Sim t w s dirs) (hl : l ∈ w.live) (hroom : w.live.length < maxProcs) {q : Nat}
    (hq : IsPid q) (hfresh : ∀ o ∈ w.live, o.pid ≠ q) :
    ∃ s' dirs', act t s (.fork l.pid q) = some s' ∧
      Sim t { w with live := { l with pid := q } :: w.live } s' dirs' := by
  obtain ⟨procs', hput, htable⟩ := hsim.table.newproc_eq hroom l hq hfresh
  refine ⟨{ s with procs := procs' }, Function.update dirs q (dirs l.pid), ?_, htable, hsim.own, ?_, ?_,
    hsim.wlog,
    hsim.rlog, hsim.forking⟩
  · rw [act, hsim.table.getproc_eq hl, Option.bind_some, hput, Option.map_some]
  · rintro o ho
    rcases List.mem_cons.mp ho with rfl | ho
    · rw [Function.update_self]
      exact hsim.dir l hl
    · rw [Function.update_of_ne (hfresh o ho)]
      exact hsim.dir o ho
  · rintro o ho hknown
    rcases List.mem_cons.mp ho with rfl | ho
    · rw [Function.update_self]
      exact hsim.known l hl hknown
    · rw [Function.update_of_ne (hfresh o ho)]
      exact hsim.known o ho hknown

theorem sim_exit (hsim : Sim t w s dirs) (hperm : w.live.Perm (l :: others)) :
    ∃ s', act t s (.exit l.pid) = some s' ∧ Sim t { w with live := others } s' dirs := by
  obtain ⟨procs', hput, htable⟩ := (hsim.table.perm hperm).freeproc_eq
  have hmem : ∀ o ∈ others, o ∈ w.live := fun o ho => hperm.mem_iff.mpr (List.mem_cons_of_mem _ ho)
  exact ⟨{ s with procs := procs' }, by rw [act, hput, Option.map_some], htable, hsim.own,
    fun o ho => hsim.dir o (hmem o ho), fun o ho => hsim.known o (hmem o ho), hsim.wlog, hsim.rlog,
    hsim.forking⟩

/-- The program goes to the directory of the process, and on from there. -/
theorem chdir_act (hsim : Sim t w s dirs) (hl : l ∈ w.live) (path : Str) :
    act t s (.chdir l.pid path) =
      (setproc l.pid (absolute ((FileTree.chdir t (dirs l.pid) path).getD (dirs l.pid))) s.procs).map fun procs =>
        { s with procs := procs, own := (FileTree.chdir t (dirs l.pid) path).getD (dirs l.pid) } := by
  have hback : FileTree.chdir t s.own (entry dirs l).cwd = some (dirs l.pid) :=
    chdir_absolute (hsim.dir l hl) s.own
  rw [act, hsim.table.getproc_eq hl, Option.bind_some, hback]
  rfl

theorem chdir_of_absolute {path : Str} (h : path.head? = some '/') (cwd cwd' : Loc) :
    FileTree.chdir t cwd path = FileTree.chdir t cwd' path := by
  rw [FileTree.chdir, FileTree.chdir, start, start, if_pos h, if_pos h]

/-- A call of `chdir` that the program does not see. -/
theorem sim_still (hsim : Sim t w s dirs) (hperm : w.live.Perm (l :: others)) {path : Str}
    {result : Option Loc}
    (hsame : SameAgain t l [] result) (hhead : path.head? = some '/' → ([] : Str).head? = some '/') :
    Sim t { w with live := { l with
      cwd := result.getD l.cwd
      known := l.known || (result.isSome && path.head? == some '/') } :: others } s dirs := by
  have hl : l ∈ w.live := hperm.mem_iff.mpr List.mem_cons_self
  have hmem : ∀ o ∈ others, o ∈ w.live := fun o ho => hperm.mem_iff.mpr (List.mem_cons_of_mem _ ho)
  have hrelative : path.head? ≠ some '/' := fun h => absurd (hhead h) (by simp)
  have htab := hsim.table.perm hperm
  refine ⟨⟨htab.size, htab.entries, htab.distinct, ?_⟩, hsim.own, ?_, ?_, hsim.wlog, hsim.rlog, hsim.forking⟩
  · rintro o ho
    rcases List.mem_cons.mp ho with rfl | ho
    · exact hsim.table.pids l hl
    · exact hsim.table.pids o (hmem o ho)
  · rintro o ho
    rcases List.mem_cons.mp ho with rfl | ho
    · exact hsim.dir l hl
    · exact hsim.dir o (hmem o ho)
  · rintro o ho hknown
    rcases List.mem_cons.mp ho with rfl | ho
    · have hbefore : l.known = true := by simpa [hrelative] using hknown
      rw [SameAgain, if_pos hbefore] at hsame
      exact (hsim.known l hl hbefore).trans hsame
    · exact hsim.known o (hmem o ho) hknown

theorem sim_chdir (hsim : Sim t w s dirs) (hperm : w.live.Perm (l :: others)) {path shown : Str}
    {result : Option Loc}
    (hsame : SameAgain t l shown result) (hhead : path.head? = some '/' → shown.head? = some '/') :
    ∃ s' dirs', act t s (.chdir l.pid shown) = some s' ∧
      Sim t { w with live := { l with
        cwd := result.getD l.cwd
        known := l.known || (result.isSome && path.head? == some '/') } :: others } s' dirs' := by
  have hl : l ∈ w.live := hperm.mem_iff.mpr List.mem_cons_self
  have hmem : ∀ o ∈ others, o ∈ w.live := fun o ho => hperm.mem_iff.mpr (List.mem_cons_of_mem _ ho)
  have hdir : t.entry ((FileTree.chdir t (dirs l.pid) shown).getD (dirs l.pid)) = some .dir := by
    cases hgo : FileTree.chdir t (dirs l.pid) shown with
    | none => exact hsim.dir l hl
    | some loc => exact chdir_dir (hsim.dir l hl) hgo
  have htab := hsim.table.perm hperm
  have hne : ∀ o ∈ others, o.pid ≠ l.pid := fun o ho => htab.rest_ne ho
  obtain ⟨procs', hput, htable⟩ := htab.setproc_eq
    ((FileTree.chdir t (dirs l.pid) shown).getD (dirs l.pid)) (result.getD l.cwd)
    (l.known || (result.isSome && path.head? == some '/'))
  refine ⟨{ s with procs := procs', own := (FileTree.chdir t (dirs l.pid) shown).getD (dirs l.pid) },
    Function.update dirs l.pid ((FileTree.chdir t (dirs l.pid) shown).getD (dirs l.pid)), ?_, htable,
    hdir, ?_, ?_,
    hsim.wlog, hsim.rlog, hsim.forking⟩
  · rw [chdir_act hsim hl, hput, Option.map_some]
  · rintro o ho
    rcases List.mem_cons.mp ho with rfl | ho
    · rw [Function.update_self]
      exact hdir
    · rw [Function.update_of_ne (hne o ho)]
      exact hsim.dir o (hmem o ho)
  · rintro o ho hknown
    rcases List.mem_cons.mp ho with rfl | ho
    · rw [Function.update_self]
      unfold SameAgain at hsame
      split_ifs at hsame with hbefore
      · rw [hsim.known l hl hbefore]
        exact hsame
      · obtain ⟨hsome, habsolute⟩ : result.isSome = true ∧ path.head? = some '/' := by
          simpa [hbefore] using hknown
        obtain ⟨loc, rfl⟩ := Option.isSome_iff_exists.mp hsome
        rw [chdir_of_absolute (hhead habsolute) (dirs l.pid) l.cwd, hsame (hhead habsolute) rfl]
        rfl
    · rw [Function.update_of_ne (hne o ho)]
      exact hsim.known o (hmem o ho) hknown

/-- The line for a file of a process, with the directory of the process in front. -/
theorem logLine_eq (hsim : Sim t w s dirs) (hl : l ∈ w.live) {name : Str}
    (hknown : l.known = true ∨ name.head? = some '/') :
    logLine s.procs l.pid name =
      some ((l.pid : Int), if name.head? = some '/' then name else absolute (l.cwd ++ [name])) := by
  rw [logLine]
  split_ifs with habsolute
  · rfl
  · have hcwd : dirs l.pid = l.cwd := hsim.known l hl (hknown.resolve_right habsolute)
    have hnames : ∀ c ∈ l.cwd, IsComponent c := by
      intro c hc
      have hdir := hsim.dir l hl
      rw [hcwd] at hdir
      exact (t.names (by rw [hdir]; rfl) c hc).1
    rw [hsim.table.getproc_eq hl, Option.map_some, absolute_snoc hnames, entry, hcwd]

/-- A file is logged under its name in the directory of the process, or not at all. -/
theorem sim_names (hsim : Sim t w s dirs) (hl : l ∈ w.live) {name : Str} {args : List Str}
    (hknown : l.known = true ∨ name.head? = some '/')
    (hargs : (∀ arg ∈ args, '"' ∉ arg) → args.getLast? = some name)
    {a : Action} (ha : a.Names l.pid name) :
    ∃ s', act t s a = some s' ∧ Sim t { w with ops := w.ops ++ [⟨l.pid, l.cwd, args⟩] } s' dirs := by
  have hline := logLine_eq hsim hl hknown
  have hprefixed : Prefixed (l.pid, if name.head? = some '/' then name else absolute (l.cwd ++ [name]))
      ⟨l.pid, l.cwd, args⟩ := ⟨rfl, name, hargs, rfl⟩
  generalize ((l.pid : Int), if name.head? = some '/' then name else absolute (l.cwd ++ [name])) = line
    at hline hprefixed
  have hlogged : ∀ {log : List (Int × Str)}, List.SublistForall₂ Prefixed log w.ops →
      List.SublistForall₂ Prefixed (log ++ [line]) (w.ops ++ [⟨l.pid, l.cwd, args⟩]) :=
    fun h => sublistForall₂_append h (.cons hprefixed .nil)
  have hkept : ∀ {log : List (Int × Str)}, List.SublistForall₂ Prefixed log w.ops →
      List.SublistForall₂ Prefixed log (w.ops ++ [⟨l.pid, l.cwd, args⟩]) := by
    intro log h
    have happend := sublistForall₂_append h (.nil (l := [⟨l.pid, l.cwd, args⟩]))
    rwa [List.append_nil] at happend
  rcases ha with rfl | ⟨flags, rfl⟩
  · refine ⟨{ s with wlog := s.wlog ++ [line] }, ?_, hsim.table, hsim.own, hsim.dir, hsim.known,
      hlogged hsim.wlog,
      hkept hsim.rlog, hsim.forking⟩
    rw [act, hline, Option.map_some]
  · rw [act]
    split_ifs
    · exact ⟨s, rfl, hsim.table, hsim.own, hsim.dir, hsim.known, hkept hsim.wlog, hkept hsim.rlog,
        hsim.forking⟩
    · rw [hline]
      exact ⟨_, rfl, hsim.table, hsim.own, hsim.dir, hsim.known, hkept hsim.wlog, hlogged hsim.rlog,
        hsim.forking⟩
    · rw [hline]
      exact ⟨_, rfl, hsim.table, hsim.own, hsim.dir, hsim.known, hlogged hsim.wlog, hkept hsim.rlog,
        hsim.forking⟩

/-- A file operation that is not logged. -/
theorem sim_unlogged (hsim : Sim t w s dirs) (op : Op) : Sim t { w with ops := w.ops ++ [op] } s dirs := by
  have hkept : ∀ {log : List (Int × Str)}, List.SublistForall₂ Prefixed log w.ops →
      List.SublistForall₂ Prefixed log (w.ops ++ [op]) := by
    intro log h
    have happend := sublistForall₂_append h (.nil (l := [op]))
    rwa [List.append_nil] at happend
  exact ⟨hsim.table, hsim.own, hsim.dir, hsim.known, hkept hsim.wlog, hkept hsim.rlog, hsim.forking⟩

/-- New names for directories, but not for those that processes are known to be in. -/
theorem sim_moved (hsim : Sim t w s dirs) {moved : Loc → Loc}
    (h : ∀ l ∈ w.live, l.known = true → moved l.cwd = l.cwd) :
    Sim t { w with live := w.live.map fun o => { o with cwd := moved o.cwd } } s dirs where
  table := by
    refine ⟨hsim.table.size, ?_, ?_, ?_⟩
    · rw [List.map_map]
      exact hsim.table.entries
    · rw [List.map_map]
      exact hsim.table.distinct
    · rintro o ho
      obtain ⟨l, hl, rfl⟩ := List.mem_map.mp ho
      exact hsim.table.pids l hl
  own := hsim.own
  dir := by
    rintro o ho
    obtain ⟨l, hl, rfl⟩ := List.mem_map.mp ho
    exact hsim.dir l hl
  known := by
    rintro o ho hknown
    obtain ⟨l, hl, rfl⟩ := List.mem_map.mp ho
    exact (hsim.known l hl hknown).trans (h l hl hknown).symm
  wlog := hsim.wlog
  rlog := hsim.rlog
  forking := hsim.forking

theorem World.Runs.mem (h : w.Runs l others) : l ∈ w.live := h.1.mem_iff.mpr List.mem_cons_self

theorem newline_end : ∀ c, (['\n'] : Str).head? = some c → c.isDigit = false := by
  rintro c hc
  rw [← Option.some.inj hc]
  rfl

theorem absolute_shown {path : Str} (h : path.head? = some '/') :
    (path.takeWhile (· != '"')).head? = some '/' := by
  cases path with
  | nil => cases h
  | cons c path =>
    rw [Option.some.inj h]
    rfl

theorem foldlM_skip {lines : List Str} (h : ∀ line ∈ lines, action line = .skip) (s : State) :
    lines.foldlM (fun s line => act t s (action line)) s = some s := by
  induction lines with
  | nil => rfl
  | cons line lines ih =>
    rw [List.foldlM_cons, h line List.mem_cons_self]
    exact ih fun line hline => h line (List.mem_cons_of_mem _ hline)

/-- A step that meets the condition has one line, of a process that lives, and the state follows. -/
theorem sim_step (hstep : Step w e w') (hmeets : Meets t w e)
    (hline : ∀ line ∈ e.lines, '\n' ∉ line ∧ CString.nul ∉ line) (hsim : Sim t w s dirs) :
    ∃ l body s' dirs', l ∈ w.live ∧ e.lines = [pidField l.pid ++ body] ∧ Sim t w' s' dirs' ∧
      (reads ((pidField l.pid ++ body).length + 1) (pidField l.pid ++ body ++ ['\n'])).foldlM
        (fun s line => act t s (action line)) s = some s' := by
  have hshort : ∀ {l : Live} {body : Str} {s' : State}, e.lines = [pidField l.pid ++ body] →
      (∀ line ∈ e.lines, line.length < 1023) →
        act t s (action (pidField l.pid ++ (body ++ ['\n']))) = some s' →
      (reads ((pidField l.pid ++ body).length + 1) (pidField l.pid ++ body ++ ['\n'])).foldlM
        (fun s line => act t s (action line)) s = some s' := by
    intro l body s' hlines hlength hact
    have hmem : pidField l.pid ++ body ∈ e.lines := by simp [hlines]
    rw [reads_short (hline _ hmem).1 (hlength _ hmem), List.append_assoc, List.foldlM_cons, hact]
    rfl
  cases hstep with
  | @fork l others q call pad h hq hfresh =>
    have hl := h.mem
    obtain ⟨s', dirs', hact, hsim'⟩ := sim_fork hsim hl hmeets.1 hq hfresh
    refine ⟨l, _, s', dirs', hl, rfl, hsim', hshort rfl hmeets.2 ?_⟩
    rw [action_fork call pad q newline_end, hact]
  | early h hq hfresh => exact hmeets.elim
  | late call pad h => exact hmeets.elim
  | failedFork call pad rest h => exact hmeets.elim
  | @chdir l others path result rest h =>
    have hl := h.mem
    have hassoc : "chdir(\"".toList ++ path ++ '"' :: rest ++ ['\n'] =
        "chdir(\"".toList ++ (path ++ '"' :: (rest ++ ['\n'])) := by
          simp only [List.append_assoc, List.cons_append]
    have haction := action_chdir path (rest ++ ['\n']) l.pid
    rw [← hassoc] at haction
    have hsame := hmeets.1 l hl rfl
    have hhead : path.head? = some '/' → (path.takeWhile (· != '"')).head? = some '/' := absolute_shown
    obtain ⟨s', dirs', hact, hsim'⟩ : ∃ s' dirs', act t s (if path.takeWhile (· != '"') = [] then .skip
        else .chdir l.pid (path.takeWhile (· != '"'))) = some s' ∧ Sim t _ s' dirs' := by
      split_ifs with hnil
      · rw [hnil] at hsame hhead
        exact ⟨s, dirs, rfl, sim_still hsim h.1 hsame hhead⟩
      · exact sim_chdir hsim h.1 hsame hhead
    refine ⟨l, _, s', dirs', hl, rfl, hsim', hshort rfl hmeets.2 ?_⟩
    rw [haction, hact]
  | @pathCall l others call path rest h =>
    have hl := h.mem
    have hassoc : call.name.toList ++ '(' :: '"' :: path ++ '"' :: rest ++ ['\n'] =
        call.name.toList ++ ['(', '"'] ++ (path ++ '"' :: (rest ++ ['\n'])) := by simp
    have hnames := action_path call path (rest ++ ['\n']) l.pid
    rw [← hassoc] at hnames
    rcases hnames with hskip | hnames
    · refine ⟨l, _, s, dirs, hl, rfl, sim_unlogged hsim _, hshort rfl hmeets.2 ?_⟩
      rw [hskip, act]
    · have hknown : l.known = true ∨ (path.takeWhile (· != '"')).head? = some '/' :=
        (hmeets.1 l hl rfl).imp_right absolute_shown
      have hargs : (∀ arg ∈ [path], '"' ∉ arg) → [path].getLast? = some (path.takeWhile (· != '"')) := by
        intro hfree
        have hpath : path.takeWhile (· != '"') = path :=
          List.takeWhile_eq_self_iff.mpr fun c hc => by
            simpa using fun heq : c = '"' => hfree path List.mem_cons_self (heq ▸ hc)
        rw [hpath]
        rfl
      obtain ⟨s', hact, hsim'⟩ := sim_names hsim hl hknown hargs hnames
      exact ⟨l, _, s', dirs, hl, rfl, hsim', hshort rfl hmeets.2 hact⟩
  | @pairCall l others call old new rest moved h hmoved =>
    have hl := h.mem
    have hassoc : call.name.toList ++ '(' :: '"' :: old ++ '"' :: ',' :: ' ' :: '"' :: new ++ '"' ::
      rest ++ ['\n'] =
        call.name.toList ++ ['(', '"'] ++ (old ++ '"' :: ',' :: ' ' :: '"' :: new ++ '"' ::
          (rest ++ ['\n'])) := by
      simp
    have hnames := action_pair call old new (rest ++ ['\n']) l.pid
    rw [← hassoc] at hnames
    rcases hnames with hskip | ⟨name, hname, hnames⟩
    · have hsim' := sim_moved (sim_unlogged hsim ⟨l.pid, l.cwd, [old, new]⟩) hmeets.2.1
      refine ⟨l, _, s, dirs, hl, rfl, hsim', hshort rfl hmeets.2.2 ?_⟩
      rw [hskip, act]
    · have hknown : l.known = true ∨ name.head? = some '/' := by
        rcases hmeets.1 l hl rfl with hknown | ⟨hold, hnew, habsolute⟩
        · exact .inl hknown
        · exact .inr (hname hold hnew ▸ habsolute)
      have hargs : (∀ arg ∈ [old, new], '"' ∉ arg) → [old, new].getLast? = some name := by
        intro hfree
        rw [hname (hfree old (.head _)) (hfree new (.tail _ (.head _)))]
        rfl
      obtain ⟨s', hact, hsim'⟩ := sim_names hsim hl hknown hargs hnames
      exact ⟨l, _, s', dirs, hl, rfl, sim_moved hsim' hmeets.2.1, hshort rfl hmeets.2.2 hact⟩
  | @exit l others call status rest h hrest =>
    have hl := h.mem
    obtain ⟨s', hact, hsim'⟩ := sim_exit hsim h.1
    have hend : ∀ c, (rest ++ ['\n']).head? = some c → c.isDigit = false := by
      cases rest with
      | nil => exact newline_end
      | cons c rest => exact fun d hd => hrest d hd
    have hassoc : call.name.toList ++ '(' :: signed status ++ rest ++ ['\n'] =
        call.name.toList ++ ['('] ++ (signed status ++ (rest ++ ['\n'])) := by simp
    refine ⟨l, _, s', dirs, hl, rfl, hsim', hshort rfl hmeets ?_⟩
    rw [hassoc, action_exit call status hend, hact]
  | @other l others text h =>
    have hl := h.mem
    refine ⟨l, text, s, dirs, hl, rfl, hsim, ?_⟩
    exact foldlM_skip (hmeets _ List.mem_cons_self) s

end Simulation

section Runs

variable {t : Tree} {w w' : World} {s : State} {dirs : Nat → Loc} {es : List Event} {start cwd : Loc}
    {pid : Nat}

theorem traceText_cons {e : Event} {line : Str} (h : e.lines = [line]) (es : List Event) :
    traceText (e :: es) = line ++ '\n' :: traceText es := by
  rw [traceText, List.flatMap_cons, h]
  simp [traceText]

/-- The state follows a run whose steps meet the condition. -/
theorem sim_run (hrun : Run (Meets t) w es w') (hsim : Sim t w s dirs) :
    ∃ s' dirs', (reads (traceText es).length (traceText es)).foldlM (fun s line =>
    act t s (action line)) s = some s' ∧
      Sim t w' s' dirs' := by
  induction hrun generalizing s dirs with
  | done w => exact ⟨s, dirs, rfl, hsim⟩
  | @step w w' w'' e es hstep hmeets hline hrun ih =>
    obtain ⟨l, body, s', dirs', -, hlines, hsim', hread⟩ := sim_step hstep hmeets hline hsim
    obtain ⟨s'', dirs'', hrest, hsim''⟩ := ih hsim'
    have hfree : '\n' ∉ pidField l.pid ++ body := (hline _ (by rw [hlines]; exact List.mem_cons_self)).1
    have hlength : (pidField l.pid ++ body).length + 1 + (traceText es).length ≤
        (pidField l.pid ++ body ++ '\n' :: traceText es).length := by
      simp only [List.length_append, List.length_cons]
      omega
    refine ⟨s'', dirs'', ?_, hsim''⟩
    rw [traceText_cons hlines, reads_line hfree hlength, List.foldlM_append, hread]
    exact hrest

/-- The table with the first process in it. -/
def firstTable (start : Loc) (pid : Nat) : List Proc :=
  ⟨pid, absolute start⟩ :: List.replicate (maxProcs - 1) ⟨0, []⟩

theorem newproc_first (start : Loc) (pid : Nat) :
    newproc pid (absolute start) (List.replicate maxProcs ⟨0, []⟩) = some (firstTable start pid) := by
  have hfull : List.replicate maxProcs (⟨0, []⟩ : Proc) =
    ⟨0, []⟩ :: List.replicate (maxProcs - 1) ⟨0, []⟩ := rfl
  rw [hfull, newproc, putproc, if_pos rfl, firstTable]

theorem sim_start (hstart : t.entry start = some .dir) (hpid : IsPid pid) (cwd : Loc) :
    Sim t (World.start start pid cwd) ⟨firstTable start pid, start, [], []⟩ fun _ => start where
  table := by
    have hne : (⟨pid, absolute start⟩ : Proc).pid ≠ 0 := by
      have hpos := hpid.1
      change (pid : Int) ≠ 0
      omega
    have hfree : used (List.replicate (maxProcs - 1) ⟨0, []⟩) = [] := by
      apply List.filter_eq_nil_iff.mpr
      intro q hq
      simp [List.eq_of_mem_replicate hq]
    refine ⟨?_, ?_, List.nodup_singleton _, ?_⟩
    · rw [firstTable, List.length_cons, List.length_replicate]
      rfl
    · rw [firstTable, used_cons hne, hfree]
      rfl
    · rintro l hl
      rw [List.mem_singleton.mp hl]
      exact hpid
  own := hstart
  dir := fun _ _ => hstart
  known := by
    rintro l hl hknown
    rw [List.mem_singleton.mp hl] at hknown ⊢
    exact of_decide_eq_true hknown
  wlog := .nil
  rlog := .nil
  forking := rfl

theorem pidField_free (p : Nat) : '\n' ∉ pidField p := by
  intro h
  simp only [pidField, List.mem_append, List.mem_replicate, List.mem_singleton] at h
  rcases h with (h | h) | h
  · exact absurd (digit_of_mem h) (by decide)
  · exact absurd h.2 (by decide)
  · exact absurd h (by decide)

theorem pidField_short (h : IsPid pid) : (pidField pid).length ≤ 1023 := by
  have hdigits : (digits pid).length ≤ 10 :=
    (Nat.length_toDigits_le_iff (by decide) (by decide)).mpr (Nat.lt_trans h.2 (by decide))
  simp only [pidField, List.length_append, List.length_replicate, List.length_singleton]
  omega

theorem scan_pid (p : Nat) (s : Str) : sscanf "%d" (pidField p ++ s) = [.num p] := by
  have hd : directives "%d".toList = [.num] := by
    rw [String.toList_ofList]
    rfl
  have hend : ∀ c, (List.replicate (5 - (digits p).length) ' ' ++ ' ' :: s).head? = some c →
    c.isDigit = false := by
    intro c hc
    cases hk : 5 - (digits p).length with
    | zero =>
      rw [hk] at hc
      rw [← Option.some.inj hc]
      rfl
    | succ k =>
      rw [hk] at hc
      rw [← Option.some.inj hc]
      rfl
  have hfield : pidField p ++ s = signed p ++ (List.replicate (5 - (digits p).length) ' ' ++ ' ' :: s) := by
    simp [pidField, signed]
  rw [sscanf, hd, hfield, scan_num (p : Int) hend, scan]

/-- The program goes on from the table with the first process. -/
theorem stparse_eq (hpid : IsPid pid) {body : Str} {input : Str} (hinput : input = pidField pid ++ body) :
    stparse t start input =
      (reads input.length input).foldlM (fun s line => act t s (action line)) ⟨firstTable start pid,
      start, [], []⟩ := by
  have hne : input ≠ [] := by
    rw [hinput]
    simp [pidField]
  obtain ⟨n, hn⟩ := Nat.exists_eq_add_of_le' (List.length_pos_iff.mpr hne)
  have hfirst : (fgets 1023 input).1 = pidField pid ++ (fgets (1023 - (pidField pid).length) body).1 := by
    rw [hinput]
    exact fgets_front (pidField_free pid) (pidField_short hpid) body
  have hread : reads input.length input = (fgets 1023 input).1 :: reads n (fgets 1023 input).2 := by
    rw [hn, reads, if_neg hne]
  have hscan : sscanf "%d" (fgets 1023 input).1 = [.num pid] := by rw [hfirst, scan_pid]
  simp only [stparse, hread, hscan, newproc_first, Option.bind_some]

/-- While every step meets the condition, nothing is aborted, the table has the live processes, and
the relative paths in the logs have the right directories in front. -/
theorem replay_holds (hstart : t.entry start = some .dir) (hpid : IsPid pid) (hes : es ≠ [])
    (hrun : Run (Meets t) (World.start start pid cwd) es w) : Holds t start es w := by
  have hsim := sim_start hstart hpid cwd
  obtain ⟨body, hinput⟩ : ∃ body, traceText es = pidField pid ++ body := by
    cases hrun with
    | done w => exact absurd rfl hes
    | @step _ w' _ e es hstep hmeets hline hrun =>
      obtain ⟨l, body, -, -, hl, hlines, -, -⟩ := sim_step hstep hmeets hline hsim
      rw [List.mem_singleton.mp hl] at hlines
      exact ⟨body ++ '\n' :: traceText es, by rw [traceText_cons hlines, List.append_assoc]⟩
  obtain ⟨s, dirs, hfold, hend⟩ := sim_run hrun hsim
  exact ⟨s, by rw [stparse_eq hpid hinput, hfold], fun p hp => hend.table.count_eq hp, hend.wlog, hend.rlog⟩

end Runs

section Sample

def sampleEntry (loc : Loc) : Option FileTree.Entry := if loc = [] ∨ loc = [['a']] then some .dir else none

theorem sampleEntry_concat {loc : Loc} {c : Str} (h : (sampleEntry (loc ++ [c])).isSome) :
    loc = [] ∧ c = ['a'] := by
  unfold sampleEntry at h
  split_ifs at h with hloc
  · rcases hloc with hloc | hloc
    · exact absurd hloc (by simp)
    · have hparts : loc = [] ∧ [c] = [['a']] := List.append_inj' (hloc.trans (List.nil_append _).symm) rfl
      exact ⟨hparts.1, (List.cons.inj hparts.2).1⟩
  · cases h

theorem a_name : IsName ['a'] := ⟨⟨by decide, by decide⟩, by decide, by decide⟩

/-- A directory in the root directory. -/
def sampleTree : Tree where
  entry := sampleEntry
  root := rfl
  parent loc c h := by
    rw [(sampleEntry_concat h).1]
    rfl
  name loc c h := by
    rw [(sampleEntry_concat h).2]
    exact a_name

/-- A child goes to the directory and opens a file there. -/
def sampleRun : List Event :=
  [.fork 7 8 .vfork 0, .chdir 8 ['a'] (some [['a']]) [')', ' ', '=', ' ', '0'],
    .pathCall 8 .openFile ['f'] [',', ' ', 'O', '_', 'R', 'D', 'O', 'N', 'L', 'Y', ')'],
    .exit 8 .exit 0 [')']]

/-- The file that a child opens is shown in front of the end of the fork. -/
def earlyRun : List Event :=
  [.other 7 ['f', 'o', 'r', 'k', '('], .early 7 8,
    .pathCall 8 .openFile ['f'] [',', ' ', 'O', '_', 'R', 'D', 'O', 'N', 'L', 'Y', ')'],
    .late 7 8 .forkResumed 0]

theorem runs_head (l : Live) (others : List Live) (ops : List Op) :
    World.Runs ⟨l :: others, [], ops⟩ l others :=
  ⟨.refl _, by simp⟩

theorem first_fresh : ∀ o ∈ (World.start [] 7 []).live, o.pid ≠ 8 := by simp [World.start]

theorem short_lines {e : Event} (h : (e.lines.all fun line => decide (line.length < 1023)) = true) :
    ∀ line ∈ e.lines, line.length < 1023 := by
  simpa using h

theorem sample_run : Run (Meets sampleTree) (World.start [] 7 []) sampleRun
    ⟨[⟨7, [], true⟩], [], [⟨8, [['a']], [['f']]⟩]⟩ := by
  have hfork : Step (World.start [] 7 []) (.fork 7 8 .vfork 0) ⟨[⟨8, [], true⟩, ⟨7, [], true⟩], [], []⟩ :=
    .fork (q := 8) .vfork 0 (runs_head ⟨7, [], true⟩ [] []) ⟨by decide, by decide⟩ first_fresh
  have hchdir : Step ⟨[⟨8, [], true⟩, ⟨7, [], true⟩], [], []⟩
      (.chdir 8 ['a'] (some [['a']]) [')', ' ', '=', ' ', '0']) ⟨[⟨8, [['a']], true⟩, ⟨7, [], true⟩], [],
        []⟩ :=
    .chdir ['a'] (some [['a']]) _ (runs_head ⟨8, [], true⟩ _ _)
  have hopen : Step ⟨[⟨8, [['a']], true⟩, ⟨7, [], true⟩], [], []⟩
      (.pathCall 8 .openFile ['f'] [',', ' ', 'O', '_', 'R', 'D', 'O', 'N', 'L', 'Y', ')'])
      ⟨[⟨8, [['a']], true⟩, ⟨7, [], true⟩], [], [⟨8, [['a']], [['f']]⟩]⟩ :=
    .pathCall .openFile ['f'] _ (runs_head ⟨8, [['a']], true⟩ _ _)
  have hclose : ∀ c, ([')'] : Str).head? = some c → c.isDigit = false := by
    rintro c hc
    rw [← Option.some.inj hc]
    rfl
  have hexit : Step ⟨[⟨8, [['a']], true⟩, ⟨7, [], true⟩], [], [⟨8, [['a']], [['f']]⟩]⟩ (.exit 8 .exit 0 [')'])
      ⟨[⟨7, [], true⟩], [], [⟨8, [['a']], [['f']]⟩]⟩ :=
    .exit .exit 0 (runs_head ⟨8, [['a']], true⟩ _ _) hclose
  refine .step hfork ⟨by decide, short_lines rfl⟩ (by decide) (.step hchdir ⟨?_, short_lines rfl⟩ (by decide)
    (.step hopen ⟨?_, short_lines rfl⟩ (by decide) (.step hexit (short_lines rfl) (by decide) (.done _))))
  · rintro l hl hpid
    rcases List.mem_cons.mp hl with rfl | hl
    · rfl
    · rw [List.mem_singleton.mp hl] at hpid
      cases hpid
  · rintro l hl -
    rcases List.mem_cons.mp hl with rfl | hl
    · exact .inl rfl
    · rw [List.mem_singleton.mp hl]
      exact .inl rfl

theorem early_run : Run (fun _ _ => True) (World.start [] 7 []) earlyRun
    ⟨[⟨8, [], true⟩, ⟨7, [], true⟩], [], [⟨8, [], [['f']]⟩]⟩ := by
  have hother : Step (World.start [] 7 []) (.other 7 ['f', 'o', 'r', 'k', '(']) (World.start [] 7 []) :=
    .other _ (runs_head ⟨7, [], true⟩ [] [])
  have hearly : Step (World.start [] 7 []) (.early 7 8) ⟨[⟨8, [], true⟩, ⟨7, [], true⟩], [(7, 8)], []⟩ :=
    .early (q := 8) (runs_head ⟨7, [], true⟩ [] []) ⟨by decide, by decide⟩ first_fresh
  have hchild : World.Runs ⟨[⟨8, [], true⟩, ⟨7, [], true⟩], [(7, 8)], []⟩ ⟨8, [], true⟩ [⟨7, [], true⟩] :=
    ⟨.refl _, by simp⟩
  have hopen : Step ⟨[⟨8, [], true⟩, ⟨7, [], true⟩], [(7, 8)], []⟩
      (.pathCall 8 .openFile ['f'] [',', ' ', 'O', '_', 'R', 'D', 'O', 'N', 'L', 'Y', ')'])
      ⟨[⟨8, [], true⟩, ⟨7, [], true⟩], [(7, 8)], [⟨8, [], [['f']]⟩]⟩ :=
    .pathCall .openFile ['f'] _ hchild
  have hlate : Step ⟨[⟨8, [], true⟩, ⟨7, [], true⟩], [(7, 8)], [⟨8, [], [['f']]⟩]⟩ (.late 7 8 .forkResumed 0)
      ⟨[⟨8, [], true⟩, ⟨7, [], true⟩], [], [⟨8, [], [['f']]⟩]⟩ :=
    .late .forkResumed 0 List.mem_cons_self
  exact .step hother trivial (by decide) (.step hearly trivial (by decide) (.step hopen trivial (by decide)
    (.step hlate trivial (by decide) (.done _))))

end Sample

theorem replay_sample : Holds sampleTree [] sampleRun ⟨[⟨7, [], true⟩], [], [⟨8, [['a']], [['f']]⟩]⟩ :=
  replay_holds rfl ⟨by decide, by decide⟩ (List.cons_ne_nil _ _) sample_run

/-- The program cannot find the child, and exits. -/
theorem early_child_aborts : Run (fun _ _ => True) (World.start [] 7 []) earlyRun
    ⟨[⟨8, [], true⟩, ⟨7, [], true⟩], [], [⟨8, [], [['f']]⟩]⟩ ∧
    ¬Holds sampleTree [] earlyRun ⟨[⟨8, [], true⟩, ⟨7, [], true⟩], [], [⟨8, [], [['f']]⟩]⟩ := by
  refine ⟨early_run, ?_⟩
  rintro ⟨s, hs, -⟩
  have habort : (stparse sampleTree [] (traceText earlyRun)).isNone = true := by decide +kernel
  rw [hs] at habort
  cases habort

end T2SDE.FlStparse
