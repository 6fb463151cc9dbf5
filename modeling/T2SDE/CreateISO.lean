import Mathlib.Logic.Function.Basic
import T2SDE.Lib.Counts
import T2SDE.Lib.Text

namespace T2SDE.CreateISO

open Text

/-- What is put at a place of the image; its line in a path list is `target=source`. -/
structure Chunk where
  source : Str
  target : Str
  deriving DecidableEq

def Chunk.isolinux (c : Chunk) : Bool := c.target == "isolinux/".toList || c.source == "isolinux/".toList

inductive Tag
  | every | disk1 | single | split
  deriving DecidableEq

/-- A line of isofs.txt. -/
structure Entry extends Chunk where
  type : Tag

/-- What the script asks about files: the size with the overhead of the files, none where there is
no such file or directory, and the sorted files below a directory. -/
structure Tree where
  size : Str → Option Nat
  files : Str → List Str

def Tree.du (tree : Tree) (c : Chunk) : Nat := (tree.size c.source).getD 0

inductive PathList
  | disk (n : Nat)
  | iso
  deriving DecidableEq

/-- What `add` has done with a chunk: the disk it has charged and the list with its line. -/
structure Placement where
  chunk : Chunk
  charged : Nat
  written : PathList

/-- The variables `disks`, `disk_nr` and `disk_x_size`, and what was done so far. -/
structure State where
  disks : List Nat
  diskNr : Nat
  size : Nat → Nat
  log : List Placement

/-- The chunks on a disk's path list, in order. -/
def State.pathspec (s : State) (x : Nat) : List Chunk :=
  (s.log.filter fun e => decide (e.written = .disk x)).map (·.chunk)

/-- The chunks whose sizes were added to `disk_x_size`. -/
def State.charges (s : State) (x : Nat) : List Chunk :=
  (s.log.filter fun e => decide (e.charged = x)).map (·.chunk)

section Add

variable (tree : Tree) (dsize : Int)

def State.fits (s : State) (size x : Nat) : Bool := decide ((s.size x : Int) + size ≤ dsize - s.size 0)

/-- The line goes to the list of the current disk, whichever disk is charged. -/
def State.charge (s : State) (c : Chunk) (size x : Nat) : State where
  disks := s.disks
  diskNr := s.diskNr
  size := Function.update s.size x (s.size x + size)
  log := s.log ++ [{ chunk := c, charged := x, written := .disk s.diskNr }]

def State.openDisk (s : State) (c : Chunk) (size : Nat) : State where
  disks := s.disks ++ [s.diskNr + 1]
  diskNr := s.diskNr + 1
  size := Function.update s.size (s.diskNr + 1) size
  log := s.log ++ [{ chunk := c, charged := s.diskNr + 1, written := if c.isolinux then .iso else .disk (s.diskNr + 1) }]

/-- `add`; none where the script exits. -/
def add (s : State) (c : Chunk) : Option State :=
  (tree.size c.source).bind fun size =>
    if dsize - s.size 0 < size then none
    else
      match s.disks.find? (s.fits dsize size) with
      | some x => some (s.charge c size x)
      | none => some (s.openDisk c size)

/-- The calls of `add` in a loop, with the check behind each. -/
def addAll (check : State → Bool) : List Chunk → State → Option State
  | [], s => some s
  | c :: chunks, s => (add tree dsize s c).bind fun t => if check t then addAll check chunks t else none

end Add

section Phases

variable (tree : Tree) (dsize : Int) (entries : List Entry)

def chunksOf (type : Tag) : List Chunk := (entries.filter fun e => decide (e.type = type)).map (·.toChunk)

def splitChunks : List Chunk :=
  (chunksOf entries .split).flatMap fun c => (tree.files c.source).map fun p =>
    { source := c.source ++ p, target := c.target ++ p }

def start : State := { disks := [0], diskNr := 0, size := fun _ => 0, log := [] }

def everyPhase : Option State := addAll tree dsize (fun s => s.diskNr == 0) (chunksOf entries .every) start

/-- `disk_nr=0; disks=""` behind the data for every disk. -/
def State.reset (s : State) : State := { s with disks := [], diskNr := 0 }

def disk1Phase (s : State) : Option State :=
  addAll tree dsize (fun s => decide (s.diskNr ≤ 1)) (chunksOf entries .disk1) s

def singlePhase (s : State) : Option State := addAll tree dsize (fun _ => true) (chunksOf entries .single) s

def splitPhase (s : State) : Option State := addAll tree dsize (fun _ => true) (splitChunks tree entries) s

/-- The packing of the entries of isofs.txt; none where the script exits. -/
def pack : Option State :=
  (everyPhase tree dsize entries).bind fun s =>
    (disk1Phase tree dsize entries s.reset).bind fun s =>
      (singlePhase tree dsize entries s).bind fun s => splitPhase tree dsize entries s

/-- The chunks that are not for every disk, in the order of the calls of `add`. -/
def diskChunks : List Chunk :=
  chunksOf entries .disk1 ++ (chunksOf entries .single ++ splitChunks tree entries)

end Phases

section Steps

variable {tree : Tree} {dsize : Int} {s t : State} {c : Chunk} {chunks : List Chunk} {check : State → Bool}

/-- Everything `add` can do. -/
theorem add_cases (h : add tree dsize s c = some t) :
    ∃ size, tree.size c.source = some size ∧ (size : Int) ≤ dsize - s.size 0 ∧
      ((∃ x, s.disks.find? (s.fits dsize size) = some x ∧ t = s.charge c size x) ∨
        s.disks.find? (s.fits dsize size) = none ∧ t = s.openDisk c size) := by
  obtain ⟨size, hsize, h⟩ := Option.bind_eq_some_iff.mp h
  split_ifs at h with hbig
  refine ⟨size, hsize, by omega, ?_⟩
  cases hfind : s.disks.find? (s.fits dsize size) with
  | some x =>
    rw [hfind] at h
    exact Or.inl ⟨x, rfl, (Option.some.inj h).symm⟩
  | none =>
    rw [hfind] at h
    exact Or.inr ⟨rfl, (Option.some.inj h).symm⟩

theorem addAll_cons (h : addAll tree dsize check (c :: chunks) s = some t) :
    ∃ u, add tree dsize s c = some u ∧ check u = true ∧ addAll tree dsize check chunks u = some t := by
  obtain ⟨u, hu, h⟩ := Option.bind_eq_some_iff.mp h
  split_ifs at h with hcheck
  exact ⟨u, hu, hcheck, h⟩

/-- What every accepted call keeps is kept by the loop. -/
theorem addAll_keeps {P : State → Prop}
    (step : ∀ {s t : State} {c : Chunk}, P s → add tree dsize s c = some t → check t = true → P t)
    (hs : P s) (h : addAll tree dsize check chunks s = some t) : P t := by
  induction chunks generalizing s with
  | nil => exact Option.some.inj h ▸ hs
  | cons c chunks ih =>
    obtain ⟨u, hu, hcheck, h⟩ := addAll_cons h
    exact ih (step hs hu hcheck) h

theorem addAll_append {rest : List Chunk} {u : State} (h : addAll tree dsize check chunks s = some u)
    (hrest : addAll tree dsize (fun _ => true) rest u = some t) :
    addAll tree dsize (fun _ => true) (chunks ++ rest) s = some t := by
  induction chunks generalizing s with
  | nil =>
    rw [Option.some.inj h]
    exact hrest
  | cons c chunks ih =>
    obtain ⟨v, hv, -, h⟩ := addAll_cons h
    rw [List.cons_append, addAll, hv, Option.bind_some, if_pos rfl, ih h]

end Steps

section Invariant

variable {tree : Tree} {dsize : Int} {s t : State} {c : Chunk} {size x : Nat}

theorem charges_charge (y : Nat) :
    (s.charge c size x).charges y = s.charges y ++ if x = y then [c] else [] := by
  by_cases h : x = y <;> simp [State.charges, State.charge, List.filter_append, h]

theorem charges_openDisk (y : Nat) :
    (s.openDisk c size).charges y = s.charges y ++ if s.diskNr + 1 = y then [c] else [] := by
  by_cases h : s.diskNr + 1 = y <;> simp [State.charges, State.openDisk, List.filter_append, h]

/-- The books of the disks. -/
structure Logged (tree : Tree) (s : State) : Prop where
  total : ∀ x, s.size x = ((s.charges x).map tree.du).sum
  charged : ∀ e ∈ s.log, e.charged ≤ s.diskNr
  written : ∀ e ∈ s.log, ∀ n, e.written = .disk n → e.charged ≤ n ∧ n ≤ s.diskNr ∧ (e.charged = 0 → n = 0)
  onDisk : ∀ e ∈ s.log, e.chunk.isolinux = false → ∃ n, e.written = .disk n

theorem Logged.charge (hs : Logged tree s) (hsize : tree.size c.source = some size) (hx : x ≤ s.diskNr)
    (hzero : x = 0 → s.diskNr = 0) : Logged tree (s.charge c size x) where
  total := by
    intro y
    have hdu : tree.du c = size := by rw [Tree.du, hsize, Option.getD_some]
    rw [charges_charge]
    by_cases h : x = y
    · subst h
      simp [State.charge, hs.total x, hdu]
    · simp [State.charge, Function.update_of_ne (Ne.symm h), hs.total y, h]
  charged := by
    intro e he
    rcases List.mem_append.mp he with he | he
    · exact hs.charged e he
    · rw [List.mem_singleton.mp he]
      exact hx
  written := by
    intro e he n hn
    rcases List.mem_append.mp he with he | he
    · exact hs.written e he n hn
    · rw [List.mem_singleton.mp he] at hn ⊢
      cases hn
      exact ⟨hx, Nat.le_refl _, hzero⟩
  onDisk := by
    intro e he hplain
    rcases List.mem_append.mp he with he | he
    · exact hs.onDisk e he hplain
    · rw [List.mem_singleton.mp he]
      exact ⟨s.diskNr, rfl⟩

theorem Logged.openDisk (hs : Logged tree s) (hsize : tree.size c.source = some size) : Logged tree (s.openDisk c size) where
  total := by
    intro y
    have hdu : tree.du c = size := by rw [Tree.du, hsize, Option.getD_some]
    rw [charges_openDisk]
    by_cases h : s.diskNr + 1 = y
    · subst h
      have hnew : s.charges (s.diskNr + 1) = [] := by
        rw [State.charges, List.map_eq_nil_iff, List.filter_eq_nil_iff]
        intro e he heq
        have hle := hs.charged e he
        have heq' := of_decide_eq_true heq
        omega
      simp [State.openDisk, hnew, hdu]
    · simp [State.openDisk, Function.update_of_ne (Ne.symm h), hs.total y, h]
  charged := by
    intro e he
    rcases List.mem_append.mp he with he | he
    · exact Nat.le_succ_of_le (hs.charged e he)
    · rw [List.mem_singleton.mp he]
      exact Nat.le_refl _
  written := by
    intro e he n hn
    rcases List.mem_append.mp he with he | he
    · obtain ⟨hle, hn, hzero⟩ := hs.written e he n hn
      exact ⟨hle, Nat.le_succ_of_le hn, hzero⟩
    · rw [List.mem_singleton.mp he] at hn ⊢
      simp only at hn
      split_ifs at hn
      cases hn
      exact ⟨Nat.le_refl _, Nat.le_refl _, fun h => h⟩
  onDisk := by
    intro e he hplain
    rcases List.mem_append.mp he with he | he
    · exact hs.onDisk e he hplain
    · rw [List.mem_singleton.mp he] at hplain ⊢
      exact ⟨s.diskNr + 1, by simp [show c.isolinux = false from hplain]⟩

/-- The state while the data for every disk is added. -/
structure OnEvery (tree : Tree) (s : State) : Prop extends Logged tree s where
  disks : s.disks = [0]
  diskNr : s.diskNr = 0

theorem start_onEvery : OnEvery tree start where
  total := fun _ => rfl
  charged := by simp [start]
  written := by simp [start]
  onDisk := by simp [start]
  disks := rfl
  diskNr := rfl

theorem OnEvery.step (hs : OnEvery tree s) (h : add tree dsize s c = some t) (hcheck : (t.diskNr == 0) = true) :
    OnEvery tree t := by
  obtain ⟨size, hsize, -, ⟨x, hfind, rfl⟩ | ⟨-, rfl⟩⟩ := add_cases h
  · have hx : x = 0 := by simpa [hs.disks] using List.mem_of_find?_eq_some hfind
    exact { hs.toLogged.charge hsize (by omega) fun _ => hs.diskNr with disks := hs.disks, diskNr := hs.diskNr }
  · exact absurd (beq_iff_eq.mp hcheck) (Nat.succ_ne_zero _)

/-- The state while the disks are filled. -/
structure OnDisks (tree : Tree) (dsize : Int) (s : State) : Prop extends Logged tree s where
  disks : s.disks = List.range' 1 s.diskNr
  room : ∀ x ∈ s.disks, (s.size x : Int) ≤ dsize - s.size 0

theorem OnDisks.mem_disks (hs : OnDisks tree dsize s) : x ∈ s.disks ↔ 1 ≤ x ∧ x ≤ s.diskNr := by
  rw [hs.disks, List.mem_range'_1]
  omega

theorem OnEvery.reset (hs : OnEvery tree s) : OnDisks tree dsize s.reset where
  total := hs.total
  charged := by
    have hcharged := hs.charged
    rwa [hs.diskNr] at hcharged
  written := by
    have hwritten := hs.written
    rwa [hs.diskNr] at hwritten
  onDisk := hs.onDisk
  disks := rfl
  room := by simp [State.reset]

theorem OnDisks.step (hs : OnDisks tree dsize s) (h : add tree dsize s c = some t) :
    OnDisks tree dsize t := by
  obtain ⟨size, hsize, hle, ⟨x, hfind, rfl⟩ | ⟨-, rfl⟩⟩ := add_cases h
  · have hx : 1 ≤ x ∧ x ≤ s.diskNr := hs.mem_disks.mp (List.mem_of_find?_eq_some hfind)
    have hfound : s.fits dsize size x = true := List.find?_some hfind
    have hfits : (s.size x : Int) + size ≤ dsize - s.size 0 := of_decide_eq_true hfound
    refine { hs.toLogged.charge hsize hx.2 (by omega) with disks := hs.disks, room := ?_ }
    intro y hy
    have hzero : 0 ≠ x := by omega
    by_cases hyx : y = x
    · subst hyx
      simpa [State.charge, Function.update_of_ne hzero] using hfits
    · simpa [State.charge, Function.update_of_ne hzero, Function.update_of_ne hyx] using hs.room y hy
  · refine { hs.toLogged.openDisk hsize with disks := ?_, room := ?_ }
    · simp [State.openDisk, hs.disks, List.range'_1_concat, Nat.add_comm]
    · intro y hy
      have hzero : 0 ≠ s.diskNr + 1 := by omega
      by_cases hnew : y = s.diskNr + 1
      · subst hnew
        simpa [State.openDisk, Function.update_of_ne hzero] using hle
      · have hy : y ∈ s.disks := by simpa [State.openDisk, hnew] using hy
        simpa [State.openDisk, Function.update_of_ne hzero, Function.update_of_ne hnew] using hs.room y hy

end Invariant

section Straight

variable {tree : Tree} {dsize : Int} {s t : State} {c : Chunk} {chunks : List Chunk} {check : State → Bool} {size x : Nat}

/-- Every line went to the list of the disk that was charged. -/
def Straight (s : State) : Prop := ∀ e ∈ s.log, e.chunk.isolinux = false → e.written = .disk e.charged

/-- No chunk, isolinux/ apart, fits on a disk before the last one when it is added. -/
def NoEarlierFit (tree : Tree) (dsize : Int) : State → List Chunk → Prop
  | _, [] => True
  | s, c :: chunks =>
    (c.isolinux = false → ∀ x, 1 ≤ x → x < s.diskNr → s.fits dsize (tree.du c) x = false) ∧
      ∀ t, add tree dsize s c = some t → NoEarlierFit tree dsize t chunks

theorem straight_charge (hs : Straight s) :
    Straight (s.charge c size x) ↔ (c.isolinux = false → x = s.diskNr) := by
  constructor
  · intro h hplain
    have hline := h { chunk := c, charged := x, written := .disk s.diskNr } (by simp [State.charge]) hplain
    cases hline
    rfl
  · intro h e he hplain
    rcases List.mem_append.mp he with he | he
    · exact hs e he hplain
    · rw [List.mem_singleton.mp he] at hplain ⊢
      rw [h hplain]

theorem straight_openDisk (hs : Straight s) : Straight (s.openDisk c size) := by
  intro e he hplain
  rcases List.mem_append.mp he with he | he
  · exact hs e he hplain
  · rw [List.mem_singleton.mp he] at hplain ⊢
    simp [show c.isolinux = false from hplain]

/-- The first disk with room is the last one exactly when no earlier disk has room. -/
theorem OnDisks.last_iff (hs : OnDisks tree dsize s) (hfind : s.disks.find? (s.fits dsize size) = some x) :
    x = s.diskNr ↔ ∀ y, 1 ≤ y → y < s.diskNr → s.fits dsize size y = false := by
  have hx : 1 ≤ x ∧ x ≤ s.diskNr := hs.mem_disks.mp (List.mem_of_find?_eq_some hfind)
  have hfound : s.fits dsize size x = true := List.find?_some hfind
  constructor
  · rintro rfl y hy hlt
    rw [hs.disks, List.find?_range'_eq_some] at hfind
    simpa using hfind.2.2 y hy hlt
  · intro h
    by_contra hne
    have hearly := h x hx.1 (by omega)
    rw [hfound] at hearly
    cases hearly

theorem straight_step (hinv : OnDisks tree dsize s) (h : add tree dsize s c = some t) :
    Straight t ↔ Straight s ∧
      (c.isolinux = false → ∀ x, 1 ≤ x → x < s.diskNr → s.fits dsize (tree.du c) x = false) := by
  obtain ⟨size, hsize, -, hstep⟩ := add_cases h
  have hdu : tree.du c = size := by rw [Tree.du, hsize, Option.getD_some]
  have hbefore : Straight t → Straight s := by
    intro ht e he
    refine ht e ?_
    rcases hstep with ⟨x, -, rfl⟩ | ⟨-, rfl⟩
    · exact List.mem_append_left _ he
    · exact List.mem_append_left _ he
  rw [hdu]
  constructor
  · intro ht
    refine ⟨hbefore ht, fun hplain => ?_⟩
    rcases hstep with ⟨x, hfind, rfl⟩ | ⟨hnone, rfl⟩
    · exact (hinv.last_iff hfind).mp ((straight_charge (hbefore ht)).mp ht hplain)
    · intro y hy hlt
      have hmem : y ∈ s.disks := hinv.mem_disks.mpr ⟨hy, Nat.le_of_lt hlt⟩
      exact Bool.eq_false_iff.mpr (List.find?_eq_none.mp hnone y hmem)
  · rintro ⟨hs, hfit⟩
    rcases hstep with ⟨x, hfind, rfl⟩ | ⟨-, rfl⟩
    · exact (straight_charge hs).mpr fun hplain => (hinv.last_iff hfind).mpr (hfit hplain)
    · exact straight_openDisk hs

theorem straight_run (hinv : OnDisks tree dsize s) (h : addAll tree dsize check chunks s = some t) :
    Straight t ↔ Straight s ∧ NoEarlierFit tree dsize s chunks := by
  induction chunks generalizing s with
  | nil =>
    rw [← Option.some.inj h]
    exact (and_iff_left trivial).symm
  | cons c chunks ih =>
    obtain ⟨u, hu, -, h⟩ := addAll_cons h
    have hnext : (∀ v, add tree dsize s c = some v → NoEarlierFit tree dsize v chunks) ↔
      NoEarlierFit tree dsize u chunks := by
      constructor
      · exact fun hall => hall u hu
      · intro hrest v hv
        rwa [← Option.some.inj (hu.symm.trans hv)]
    rw [ih (hinv.step hu) h, straight_step hinv hu, NoEarlierFit, hnext, and_assoc]

end Straight

section Packed

variable {tree : Tree} {dsize : Int} {s t : State} {c : Chunk} {chunks : List Chunk}
    {check : State → Bool} {size x : Nat}

/-- All chunks but isolinux/. -/
def plain (chunks : List Chunk) : List Chunk := chunks.filter fun c => !c.isolinux

/-- The books agree with the path lists, isolinux/ apart. -/
structure Packed (tree : Tree) (dsize : Int) (entries : List Entry) (s : State) : Prop where
  total : ∀ x ∈ s.disks, s.size x = ((s.charges x).map tree.du).sum
  charged : ∀ x ∈ s.disks, ((plain (s.charges x)).map tree.du).Perm ((plain (s.pathspec x)).map tree.du)
  once : (s.disks.flatMap fun x => plain (s.pathspec x)).Perm (plain (diskChunks tree entries))
  room : ∀ x ∈ s.disks, (((plain (s.pathspec x)).map tree.du).sum : Int) ≤ dsize - s.size 0

/-- The disk whose list has the line. -/
def Placement.listed (e : Placement) : Nat :=
  match e.written with
  | .disk n => n
  | .iso => 0

/-- What `add` has done with the chunks but isolinux/. -/
def State.plainLog (s : State) : List Placement := s.log.filter fun e => !e.chunk.isolinux

theorem Logged.listed (hs : Logged tree s) {e : Placement} (he : e ∈ s.plainLog) :
    e.written = .disk e.listed ∧ e.charged ≤ e.listed ∧ e.listed ≤ s.diskNr ∧
    (e.charged = 0 ↔ e.listed = 0) := by
  obtain ⟨hlog, hplain⟩ := List.mem_filter.mp he
  obtain ⟨n, hn⟩ := hs.onDisk e hlog (by simpa using hplain)
  obtain ⟨hle, hlast, hzero⟩ := hs.written e hlog n hn
  have hlisted : e.listed = n := by rw [Placement.listed, hn]
  rw [hlisted]
  exact ⟨hn, hle, hlast, hzero, fun h => by omega⟩

theorem plain_charges (x : Nat) :
    plain (s.charges x) = (s.plainLog.filter fun e => decide (e.charged = x)).map (·.chunk) := by
  rw [plain, State.charges, List.filter_map, State.plainLog, List.filter_comm]
  rfl

theorem Logged.plain_pathspec (hs : Logged tree s) (x : Nat) :
    plain (s.pathspec x) = (s.plainLog.filter fun e => decide (e.listed = x)).map (·.chunk) := by
  have hfilter : (s.plainLog.filter fun e => decide (e.written = .disk x)) =
      s.plainLog.filter fun e => decide (e.listed = x) := by
    apply List.filter_congr
    intro e he
    rw [(hs.listed he).1, decide_eq_decide]
    exact ⟨PathList.disk.inj, congrArg PathList.disk⟩
  rw [plain, State.pathspec, List.filter_map, ← hfilter, State.plainLog, List.filter_comm]
  rfl

theorem Logged.straight_iff (hs : Logged tree s) : Straight s ↔ ∀ e ∈ s.plainLog, e.charged = e.listed := by
  constructor
  · intro h e he
    obtain ⟨hlog, hplain⟩ := List.mem_filter.mp he
    have hline := (hs.listed he).1.symm.trans (h e hlog (by simpa using hplain))
    exact (PathList.disk.inj hline).symm
  · intro h e hlog hplain
    have he : e ∈ s.plainLog := List.mem_filter.mpr ⟨hlog, by simp [hplain]⟩
    rw [(hs.listed he).1, h e he]

theorem OnDisks.charged_iff (hs : OnDisks tree dsize s) :
    (∀ x ∈ s.disks, ((plain (s.charges x)).map tree.du).Perm ((plain (s.pathspec x)).map tree.du)) ↔
    Straight s := by
  rw [hs.toLogged.straight_iff]
  constructor
  · intro h
    refine Counts.eq_of_counts (fun e he => (hs.toLogged.listed he).2.1) ?_
    intro x
    by_cases hx : x ∈ s.disks
    · have hlen := (h x hx).length_eq
      simpa [plain_charges, hs.toLogged.plain_pathspec] using hlen
    · -- no chunk was charged to such a disk, or all are for every disk
      congr 1
      apply List.filter_congr
      intro e he
      obtain ⟨-, hle, hlast, hzero⟩ := hs.toLogged.listed he
      rw [hs.mem_disks] at hx
      rw [decide_eq_decide]
      constructor
      · rintro rfl
        omega
      · rintro rfl
        omega
  · intro h x _
    have hfilter : (s.plainLog.filter fun e => decide (e.charged = x)) = s.plainLog.filter fun e =>
      decide (e.listed = x) := by
      apply List.filter_congr
      intro e he
      rw [h e he]
    rw [plain_charges, hs.toLogged.plain_pathspec, hfilter]

/-- The chunks that were added after the data for every disk. -/
def State.placed (s : State) : List Chunk := (s.log.filter fun e => decide (e.charged ≠ 0)).map (·.chunk)

theorem OnDisks.placed_step (hs : OnDisks tree dsize s) (h : add tree dsize s c = some t) : t.placed = s.placed ++ [c] := by
  obtain ⟨size, -, -, ⟨x, hfind, rfl⟩ | ⟨-, rfl⟩⟩ := add_cases h
  · have hx : 1 ≤ x ∧ x ≤ s.diskNr := hs.mem_disks.mp (List.mem_of_find?_eq_some hfind)
    have hne : x ≠ 0 := by omega
    simp [State.placed, State.charge, List.filter_append, hne]
  · simp [State.placed, State.openDisk, List.filter_append]

theorem OnDisks.placed_run (hs : OnDisks tree dsize s) (h : addAll tree dsize check chunks s = some t) :
    t.placed = s.placed ++ chunks := by
  induction chunks generalizing s with
  | nil => rw [Option.some.inj h, List.append_nil]
  | cons c chunks ih =>
    obtain ⟨u, hu, -, h⟩ := addAll_cons h
    rw [ih (hs.step hu) h, hs.placed_step hu, List.append_assoc, List.singleton_append]

theorem OnDisks.once (hs : OnDisks tree dsize s) :
    (s.disks.flatMap fun x => plain (s.pathspec x)).Perm (plain s.placed) := by
  have hlists : (s.disks.flatMap fun x => plain (s.pathspec x)) =
      (s.disks.flatMap fun x => s.plainLog.filter fun e => decide (e.listed = x)).map (·.chunk) := by
    rw [List.map_flatMap]
    congr 1
    funext x
    exact hs.toLogged.plain_pathspec x
  have hplaced : plain s.placed =
      (s.plainLog.filter fun e => decide (1 ≤ e.listed ∧ e.listed ≤ s.diskNr)).map (·.chunk) := by
    have hfilter : (s.plainLog.filter fun e => decide (1 ≤ e.listed ∧ e.listed ≤ s.diskNr)) =
        s.plainLog.filter fun e => decide (e.charged ≠ 0) := by
      apply List.filter_congr
      intro e he
      obtain ⟨-, -, hlast, hzero⟩ := hs.toLogged.listed he
      rw [decide_eq_decide]
      omega
    rw [plain, State.placed, List.filter_map, hfilter, State.plainLog, List.filter_comm]
    rfl
  rw [hlists, hplaced, hs.disks]
  exact (Counts.flatMap_filter_perm s.diskNr).map _

theorem sum_plain_le (du : Chunk → Nat) (chunks : List Chunk) :
    ((plain chunks).map du).sum ≤ (chunks.map du).sum := by
  induction chunks with
  | nil => exact Nat.le_refl _
  | cons c chunks ih =>
    rw [plain] at ih ⊢
    cases h : c.isolinux with
    | true =>
      rw [List.filter_cons_of_neg (by simp [h]), List.map_cons, List.sum_cons]
      omega
    | false =>
      rw [List.filter_cons_of_pos (by simp [h]), List.map_cons, List.sum_cons, List.map_cons, List.sum_cons]
      omega

theorem OnDisks.packed_straight (hs : OnDisks tree dsize s) {entries : List Entry}
    (hplaced : s.placed = diskChunks tree entries) :
    Packed tree dsize entries s ↔ Straight s := by
  constructor
  · intro h
    exact hs.charged_iff.mp h.charged
  · intro h
    have hcharged := hs.charged_iff.mpr h
    refine ⟨fun x _ => hs.total x, hcharged, hplaced ▸ hs.once, ?_⟩
    intro x hx
    have hroom := hs.room x hx
    have hle := sum_plain_le tree.du (s.charges x)
    rw [← hs.total x, (hcharged x hx).sum_nat] at hle
    omega

end Packed

section Runs

variable {tree : Tree} {dsize : Int} {entries : List Entry} {s : State}

/-- The packing as one loop over the chunks behind the data for every disk. -/
theorem pack_cases (h : pack tree dsize entries = some s) :
    ∃ u, everyPhase tree dsize entries = some u ∧
      addAll tree dsize (fun _ => true) (diskChunks tree entries) u.reset = some s := by
  obtain ⟨u, hu, h⟩ := Option.bind_eq_some_iff.mp h
  obtain ⟨v, hv, h⟩ := Option.bind_eq_some_iff.mp h
  obtain ⟨w, hw, h⟩ := Option.bind_eq_some_iff.mp h
  exact ⟨u, hu, addAll_append hv (addAll_append hw h)⟩

theorem everyPhase_onEvery (h : everyPhase tree dsize entries = some s) : OnEvery tree s :=
  addAll_keeps (fun hs h hcheck => hs.step h hcheck) start_onEvery h

theorem OnEvery.placed_nil (hs : OnEvery tree s) : s.reset.placed = [] := by
  rw [State.placed, List.map_eq_nil_iff, List.filter_eq_nil_iff]
  intro e he h
  have hle := hs.charged e he
  have hne := of_decide_eq_true h
  rw [hs.diskNr] at hle
  omega

theorem OnEvery.straight (hs : OnEvery tree s) : Straight s.reset := by
  intro e he hplain
  have hle := hs.charged e he
  obtain ⟨n, hn⟩ := hs.onDisk e he hplain
  have hlast := (hs.written e he n hn).2.1
  rw [hs.diskNr] at hle hlast
  rw [hn, Nat.le_zero.mp hle, Nat.le_zero.mp hlast]

/-- The books agree with the lists exactly when no chunk finds room on an earlier disk. -/
theorem packed_iff (h : pack tree dsize entries = some s) :
    Packed tree dsize entries s ↔
      ∀ u, everyPhase tree dsize entries = some u →
      NoEarlierFit tree dsize u.reset (diskChunks tree entries) := by
  obtain ⟨u, hu, hrun⟩ := pack_cases h
  have hevery : OnEvery tree u := everyPhase_onEvery hu
  have hstart : OnDisks tree dsize u.reset := hevery.reset
  have hs : OnDisks tree dsize s := addAll_keeps (fun hs h _ => hs.step h) hstart hrun
  have hplaced : s.placed = diskChunks tree entries := by
    rw [hstart.placed_run hrun, hevery.placed_nil, List.nil_append]
  rw [hs.packed_straight hplaced, straight_run hstart hrun, and_iff_right hevery.straight]
  constructor
  · intro hfit v hv
    rwa [← Option.some.inj (hu.symm.trans hv)]
  · exact fun hfit => hfit u hu

end Runs

section Samples

/-- Three packages of 6, 8 and 4 kB. -/
def threeTree : Tree where
  size := fun path =>
    if path = "a".toList then some 6
    else if path = "b".toList then some 8
    else if path = "c".toList then some 4
    else none
  files := fun _ => []

def single (path : Str) : Entry := { source := path, target := path, type := .single }

def threeEntries : List Entry := [single "a".toList, single "b".toList, single "c".toList]

def threeDisks : State := (pack threeTree 10 threeEntries).getD start

theorem packed_sample :
    Packed threeTree 10 threeEntries threeDisks ↔
      ∀ u, everyPhase threeTree 10 threeEntries = some u →
        NoEarlierFit threeTree 10 u.reset (diskChunks threeTree threeEntries) :=
  packed_iff rfl

/-- The third package is charged to the first disk and written to the full second one. -/
theorem packed_fails :
    ¬ ∀ (tree : Tree) (dsize : Int) (entries : List Entry) (s : State),
      pack tree dsize entries = some s → Packed tree dsize entries s := by
  intro h
  have hroom := (h threeTree 10 threeEntries threeDisks rfl).room 2 (by decide)
  exact absurd hroom (by decide)

end Samples

end T2SDE.CreateISO
