import Mathlib.Logic.Function.Basic

namespace T2SDE.Download.Lock

open Function

/-- Where a process is in its calls of download_file for one final file. -/
inductive Place
  | outside
  /-- `[ -s "$lkfile" ]` has found no lock. -/
  | tested
  | trapped
  /-- `> "$lkfile"` is open, nothing is written yet. -/
  | opened (inode : Nat)
  /-- The lock is written; an INT since then has removed it again. -/
  | locked (interrupted : Bool)
  /-- `rm -f "$lkfile"` is done, `trap INT` is not. -/
  | released
  | dead
  deriving DecidableEq

/-- The lock file's directory entry, the files behind it, and the processes. -/
structure State (Pid : Type) where
  lkfile : Option Nat
  content : Nat → Option Pid
  fresh : Nat
  place : Pid → Place

inductive Action (Pid : Type)
  | test (p : Pid)
  | trap (p : Pid)
  | create (p : Pid)
  | write (p : Pid)
  | remove (p : Pid)
  | reset (p : Pid)
  | interrupt (p : Pid)
  | kill (p : Pid)

variable {Pid : Type} [DecidableEq Pid]

/-- No lock, and no process in a call for the file. -/
def State.init : State Pid :=
  { lkfile := none, content := fun _ => none, fresh := 0, place := fun _ => .outside }

/-- `[ -s "$lkfile" ]` -/
def State.found (s : State Pid) : Bool :=
  match s.lkfile with
  | some inode => (s.content inode).isSome
  | none => false

def State.goto (s : State Pid) (p : Pid) (place : Place) : State Pid :=
  { s with place := update s.place p place }

/-- `> "$lkfile"`: an existing file is emptied. -/
def State.create (s : State Pid) (p : Pid) : State Pid :=
  match s.lkfile with
  | some inode =>
    { s.goto p (.opened inode) with content := update s.content inode none }
  | none =>
    { s.goto p (.opened s.fresh) with
      lkfile := some s.fresh, content := update s.content s.fresh none, fresh := s.fresh + 1 }

/-- `rm -f "$lkfile"` -/
def State.remove (s : State Pid) : State Pid := { s with lkfile := none }

/-- One command of a process. All returns behind the trap are `rm -f "$lkfile"; trap INT; return`. -/
def step (s : State Pid) : Action Pid → Option (State Pid)
  | .test p =>
    match s.place p with
    -- "skip download" returns at once
    | .outside => some (if s.found then s else s.goto p .tested)
    | _ => none
  | .trap p =>
    match s.place p with
    | .tested => some (s.goto p .trapped)
    | _ => none
  | .create p =>
    match s.place p with
    | .trapped => some (s.create p)
    | _ => none
  | .write p =>
    match s.place p with
    | .opened inode =>
      some { s.goto p (.locked false) with content := update s.content inode (some p) }
    | _ => none
  | .remove p =>
    match s.place p with
    | .locked _ => some (s.remove.goto p .released)
    | _ => none
  | .reset p =>
    match s.place p with
    | .released => some (s.goto p .outside)
    | _ => none
  | .interrupt p =>
    match s.place p with
    | .outside => some (s.goto p .dead)
    | .tested => some (s.goto p .dead)
    | .trapped => some (s.remove.goto p .trapped)
    -- the shell runs a trap only when the command is done
    | .opened _ => none
    | .locked _ => some (s.remove.goto p (.locked true))
    | .released => some (s.remove.goto p .released)
    | .dead => none
  | .kill p => some (s.goto p .dead)

/-- A process is between acquiring and releasing the lock. -/
def Holds (s : State Pid) (p : Pid) : Prop := ∃ interrupted, s.place p = .locked interrupted

/-- The lock is tested only while every other process that went past its test has its lock written
and not lost, and no INT comes between rm and `trap INT` while another one has opened the lock. -/
def Calm (s : State Pid) : Action Pid → Prop
  | .test p => ∀ q, q ≠ p → s.place q ≠ .tested ∧ s.place q ≠ .trapped ∧
      (∀ inode, s.place q ≠ .opened inode) ∧ s.place q ≠ .locked true
  | .interrupt p => s.place p = .released →
      ∀ q, q ≠ p → (∀ inode, s.place q ≠ .opened inode) ∧ ¬Holds s q
  | _ => True

/-- A run whose steps all meet the condition, from any lock file and with no call begun. -/
inductive CalmRun : State Pid → Prop
  | start {s : State Pid} : (∀ p, s.place p = .outside) → CalmRun s
  | next {s t : State Pid} {a : Action Pid} :
    CalmRun s → Calm s a → step s a = some t → CalmRun t

/-- A process has gone past its test and not yet released the lock. -/
def Place.busy : Place → Bool
  | .tested => true
  | .trapped => true
  | .opened _ => true
  | .locked _ => true
  | _ => false

structure Inv (s : State Pid) : Prop where
  unique : ∀ p q, (s.place p).busy = true → (s.place q).busy = true → p = q
  created : ∀ p inode, s.place p = .opened inode → s.lkfile = some inode
  written : ∀ p, s.place p = .locked false → s.found = true

/-- What a step of one process has to keep for the others. -/
theorem Inv.update {s t : State Pid} {p : Pid} {place : Place} (h : Inv s)
    (hplace : t.place = update s.place p place)
    (hbusy : place.busy = true → (s.place p).busy = true ∨ ∀ q, q ≠ p → (s.place q).busy = false)
    (hcreated : ∀ inode, place = .opened inode → t.lkfile = some inode)
    (hwritten : place = .locked false → t.found = true)
    (hother : t.lkfile = s.lkfile ∧ t.found = s.found ∨
      ∀ q, q ≠ p → (∀ inode, s.place q ≠ .opened inode) ∧ s.place q ≠ .locked false) : Inv t := by
  have hself : t.place p = place := by rw [hplace, update_self]
  have hne {q : Pid} (hq : q ≠ p) : t.place q = s.place q := by rw [hplace, update_of_ne hq]
  have hunique {q : Pid} (hq : q ≠ p) (hp : place.busy = true) : (s.place q).busy = false := by
    rcases hbusy hp with hsame | hfree
    · exact Bool.eq_false_iff.mpr fun hqb => hq (h.unique q p hqb hsame)
    · exact hfree q hq
  refine ⟨?_, ?_, ?_⟩
  · intro q r hqb hrb
    by_cases hq : q = p
    · by_cases hr : r = p
      · exact hq.trans hr.symm
      · rw [hq, hself] at hqb
        rw [hne hr, hunique hr hqb] at hrb
        cases hrb
    · by_cases hr : r = p
      · rw [hr, hself] at hrb
        rw [hne hq, hunique hq hrb] at hqb
        cases hqb
      · rw [hne hq] at hqb
        rw [hne hr] at hrb
        exact h.unique q r hqb hrb
  · intro q inode hopened
    by_cases hq : q = p
    · rw [hq, hself] at hopened
      exact hcreated inode hopened
    · rw [hne hq] at hopened
      rcases hother with ⟨hfile, _⟩ | hnone
      · exact hfile.trans (h.created q inode hopened)
      · exact absurd hopened ((hnone q hq).1 inode)
  · intro q hlocked
    by_cases hq : q = p
    · rw [hq, hself] at hlocked
      exact hwritten hlocked
    · rw [hne hq] at hlocked
      rcases hother with ⟨_, hfound⟩ | hnone
      · exact hfound.trans (h.written q hlocked)
      · exact absurd hlocked (hnone q hq).2

omit [DecidableEq Pid] in
/-- While a process is past its test, no other one has opened or locked. -/
theorem Inv.alone {s : State Pid} (h : Inv s) {p : Pid} (hp : (s.place p).busy = true) (q : Pid)
    (hq : q ≠ p) : (∀ inode, s.place q ≠ .opened inode) ∧ ∀ interrupted, s.place q ≠ .locked interrupted := by
  have hidle : (s.place q).busy = false :=
    Bool.eq_false_iff.mpr fun hqb => hq (h.unique q p hqb hp)
  refine ⟨fun inode hopened => ?_, fun interrupted hlocked => ?_⟩
  · simp [hopened, Place.busy] at hidle
  · simp [hlocked, Place.busy] at hidle

theorem Inv.leave {s : State Pid} (h : Inv s) (p : Pid) {place : Place} (hidle : place.busy = false) :
    Inv (s.goto p place) := by
  refine h.update rfl (fun hb => by simp [hidle] at hb) ?_ ?_ (.inl ⟨rfl, rfl⟩)
  · rintro inode rfl
    cases hidle
  · rintro rfl
    cases hidle

theorem Inv.remove {s : State Pid} (h : Inv s) {p : Pid} {place : Place}
    (hbusy : place.busy = true → (s.place p).busy = true)
    (hplace : (∀ inode, place ≠ .opened inode) ∧ place ≠ .locked false)
    (halone : ∀ q, q ≠ p → (∀ inode, s.place q ≠ .opened inode) ∧ ∀ interrupted,
    s.place q ≠ .locked interrupted) :
    Inv (s.remove.goto p place) := by
  refine h.update rfl (fun hb => .inl (hbusy hb)) (fun inode ho => absurd ho (hplace.1 inode))
    (fun hl => absurd hl hplace.2) (.inr fun q hq => ⟨(halone q hq).1, (halone q hq).2 false⟩)

theorem Inv.create {s : State Pid} (h : Inv s) {p : Pid} (hp : s.place p = .trapped) :
    Inv (s.create p) := by
  have hbusy : (s.place p).busy = true := by rw [hp]; rfl
  have halone (q : Pid) (hq : q ≠ p) :
      (∀ inode, s.place q ≠ .opened inode) ∧ s.place q ≠ .locked false :=
    ⟨(h.alone hbusy q hq).1, (h.alone hbusy q hq).2 false⟩
  unfold State.create
  split
  next inode hfile =>
    refine h.update rfl (fun _ => .inl hbusy) ?_ (by simp) (.inr halone)
    intro inode' ho
    cases ho
    exact hfile
  next hfile =>
    refine h.update rfl (fun _ => .inl hbusy) ?_ (by simp) (.inr halone)
    intro inode' ho
    cases ho
    rfl

theorem Inv.write {s : State Pid} (h : Inv s) {p : Pid} {inode : Nat} (hp : s.place p = .opened inode) :
    Inv { s.goto p (.locked false) with content := Function.update s.content inode (some p) } := by
  have hbusy : (s.place p).busy = true := by rw [hp]; rfl
  refine h.update rfl (fun _ => .inl hbusy) (by simp) ?_
    (.inr fun q hq => ⟨(h.alone hbusy q hq).1, (h.alone hbusy q hq).2 false⟩)
  intro _
  have hfile := h.created p inode hp
  simp [State.found, State.goto, hfile]

/-- A test that finds no lock is made with nobody else past the test. -/
theorem Inv.test {s : State Pid} (h : Inv s) {p : Pid} (hcalm : Calm s (.test p))
    (hfound : s.found = false) : Inv (s.goto p .tested) := by
  refine h.update rfl (fun _ => .inr ?_) (by simp) (by simp) (.inl ⟨rfl, rfl⟩)
  intro q hq
  obtain ⟨htested, htrapped, hopened, hlost⟩ := hcalm q hq
  cases hplace : s.place q with
  | tested => exact absurd hplace htested
  | trapped => exact absurd hplace htrapped
  | opened inode => exact absurd hplace (hopened inode)
  | locked interrupted =>
    cases interrupted with
    | true => exact absurd hplace hlost
    | false =>
      have hlock := h.written q hplace
      simp [hfound] at hlock
  | outside => rfl
  | released => rfl
  | dead => rfl

theorem Inv.interrupt {s t : State Pid} (h : Inv s) {p : Pid} (hcalm : Calm s (.interrupt p))
    (hstep : step s (.interrupt p) = some t) : Inv t := by
  cases hplace : s.place p with
  | outside =>
    simp only [step, hplace] at hstep
    cases hstep
    exact h.leave p rfl
  | tested =>
    simp only [step, hplace] at hstep
    cases hstep
    exact h.leave p rfl
  | trapped =>
    have hbusy : (s.place p).busy = true := by rw [hplace]; rfl
    simp only [step, hplace] at hstep
    cases hstep
    exact h.remove (fun _ => hbusy) (by simp) (h.alone hbusy)
  | opened inode => simp [step, hplace] at hstep
  | locked interrupted =>
    have hbusy : (s.place p).busy = true := by rw [hplace]; rfl
    simp only [step, hplace] at hstep
    cases hstep
    exact h.remove (fun _ => hbusy) (by simp) (h.alone hbusy)
  | released =>
    simp only [step, hplace] at hstep
    cases hstep
    refine h.remove (by simp [Place.busy]) (by simp) ?_
    intro q hq
    obtain ⟨hopened, hholds⟩ := hcalm hplace q hq
    exact ⟨hopened, fun interrupted hl => hholds ⟨interrupted, hl⟩⟩
  | dead => simp [step, hplace] at hstep

theorem Inv.step {s t : State Pid} {a : Action Pid} (h : Inv s) (hcalm : Calm s a)
    (hstep : Lock.step s a = some t) : Inv t := by
  cases a with
  | interrupt p => exact h.interrupt hcalm hstep
  | kill p =>
    cases hstep
    exact h.leave p rfl
  | test p =>
    cases hplace : s.place p <;> simp only [Lock.step, hplace] at hstep <;> cases hstep
    cases hfound : s.found with
    | true => exact h
    | false => exact h.test hcalm hfound
  | trap p =>
    cases hplace : s.place p <;> simp only [Lock.step, hplace] at hstep <;> cases hstep
    refine h.update rfl (fun _ => .inl ?_) (by simp) (by simp) (.inl ⟨rfl, rfl⟩)
    rw [hplace]
    rfl
  | create p =>
    cases hplace : s.place p <;> simp only [Lock.step, hplace] at hstep <;> cases hstep
    exact h.create hplace
  | write p =>
    cases hplace : s.place p <;> simp only [Lock.step, hplace] at hstep <;> cases hstep
    exact h.write hplace
  | remove p =>
    cases hplace : s.place p <;> simp only [Lock.step, hplace] at hstep <;> cases hstep
    exact h.remove (by simp [Place.busy]) (by simp) (h.alone (by rw [hplace]; rfl))
  | reset p =>
    cases hplace : s.place p <;> simp only [Lock.step, hplace] at hstep <;> cases hstep
    exact h.leave p rfl

theorem CalmRun.inv {s : State Pid} (h : CalmRun s) : Inv s := by
  induction h with
  | start houtside =>
    refine ⟨?_, ?_, ?_⟩
    · intro p q hp
      simp [houtside p, Place.busy] at hp
    · intro p inode hp
      simp [houtside p] at hp
    · intro p hp
      simp [houtside p] at hp
  | next _ hcalm hstep ih => exact ih.step hcalm hstep

/-- The lock file goes by the rm of a return or of the trap only. -/
theorem removed_by {s t : State Pid} {a : Action Pid} (hstep : step s a = some t)
    (hthere : s.lkfile ≠ none) (hgone : t.lkfile = none) :
    ∃ p, (a = .remove p ∧ ∃ interrupted, s.place p = .locked interrupted) ∨
      a = .interrupt p ∧ ((s.place p).busy = true ∨ s.place p = .released) := by
  cases a with
  | remove p =>
    cases hplace : s.place p <;> simp only [step, hplace] at hstep <;> cases hstep
    exact ⟨p, .inl ⟨rfl, _, hplace⟩⟩
  | interrupt p =>
    cases hplace : s.place p <;> simp only [step, hplace] at hstep <;> cases hstep
    all_goals first
      | exact absurd hgone hthere
      | exact ⟨p, .inr ⟨rfl, by simp [hplace, Place.busy]⟩⟩
  | create p =>
    cases hplace : s.place p <;> simp only [step, hplace] at hstep <;> cases hstep
    unfold State.create at hgone
    split at hgone
    next => exact absurd hgone hthere
    next => simp at hgone
  | test p =>
    cases hplace : s.place p <;> simp only [step, hplace] at hstep <;> cases hstep
    split at hgone <;> exact absurd hgone hthere
  | kill p =>
    cases hstep
    exact absurd hgone hthere
  | _ p =>
    cases hplace : s.place p <;> simp only [step, hplace] at hstep <;> cases hstep
    exact absurd hgone hthere

/-- In a calm run one process at most is between acquiring and releasing the lock, and no other
one takes it away. -/
theorem lock_exclusive {s : State Pid} (h : CalmRun s) :
    (∀ p q, Holds s p → Holds s q → p = q) ∧
    ∀ a t, Calm s a → step s a = some t → s.lkfile ≠ none → t.lkfile = none →
      ∀ q, Holds s q → a = .remove q ∨ a = .interrupt q := by
  have hinv := h.inv
  have hbusy {p : Pid} (hp : Holds s p) : (s.place p).busy = true := by
    obtain ⟨interrupted, hplace⟩ := hp
    rw [hplace]
    rfl
  refine ⟨fun p q hp hq => hinv.unique p q (hbusy hp) (hbusy hq), ?_⟩
  intro a t hcalm hstep hthere hgone q hq
  obtain ⟨p, ⟨rfl, hp⟩ | ⟨rfl, hp⟩⟩ := removed_by hstep hthere hgone
  · rw [hinv.unique q p (hbusy hq) (hbusy hp)]
    exact .inl rfl
  · rcases hp with hp | hp
    · rw [hinv.unique q p (hbusy hq) hp]
      exact .inr rfl
    · by_cases hqp : q = p
      · rw [hqp]
        exact .inr rfl
      · exact absurd hq (hcalm hp q hqp).2

/-- Process 0 locks, process 1 finds the lock, process 0 removes it. -/
theorem lock_exclusive_sample :
    ∃ s t : State Nat, Holds s 0 ∧ s.lkfile = some 0 ∧ t.lkfile = none ∧ step s (.remove 0) = some t ∧
      ∀ q, Holds s q → (.remove 0 : Action Nat) = .remove q ∨ (.remove 0 : Action Nat) = .interrupt q := by
  have hstart : CalmRun (.init : State Nat) := .start fun _ => rfl
  have htest : CalmRun (State.goto .init 0 .tested) :=
    hstart.next (a := .test 0) (fun q _ => by simp [State.init]) rfl
  have hwrite : @CalmRun Nat _ _ :=
    ((htest.next (a := .trap 0) trivial rfl).next (a := .create 0) trivial rfl).next (a := .write 0)
      trivial rfl
  have hfind := hwrite.next (a := .test 1) (fun q _ => by
    by_cases hq : q = 0 <;> simp [State.goto, State.create, State.init, hq]) rfl
  exact ⟨_, _, ⟨false, rfl⟩, rfl, rfl, rfl,
    (lock_exclusive hfind).2 (.remove 0) _ trivial rfl (show some 0 ≠ none by simp) rfl⟩

/-- Two processes test before either has written its lock; both go on, and the first one's rm
takes the second one's lock. -/
theorem lock_taken_twice :
    ∃ s t : State Nat,
      List.foldlM step .init [.test 0, .test 1, .trap 0, .create 0, .write 0, .trap 1, .create 1,
      .write 1] = some s ∧
      Holds s 0 ∧ Holds s 1 ∧ s.lkfile = some 0 ∧ s.content 0 = some 1 ∧
      step s (.remove 0) = some t ∧ t.lkfile = none :=
  ⟨_, _, rfl, ⟨_, rfl⟩, ⟨_, rfl⟩, rfl, rfl, rfl, rfl⟩

end T2SDE.Download.Lock
