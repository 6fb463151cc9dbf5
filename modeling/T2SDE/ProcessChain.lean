import T2SDE.FlLog
import T2SDE.Lib.Scanf
import T2SDE.Lib.Snprintf

namespace T2SDE.ProcessChain

open Text CString Scanf Snprintf
open FlWrapper (interpreters)

section Functions

/-- A process as `/proc` shows it. -/
structure Process where
  comm : Str
  state : Char
  ppid : Nat
  rest : Str
  cmdline : Str
  /-- the kernel keeps 16 bytes for it -/
  comm_short : comm.length ≤ 15
  comm_free : nul ∉ comm
  letter : 65 ≤ state.toNat
  ppid_int : ppid ≤ 2147483647
  more : ∃ s, rest = ' ' :: s
  rest_free : nul ∉ rest

/-- A write of so many bytes from a position of a buffer on. -/
structure Write where
  pos : Nat
  length : Nat
  capacity : Nat

def Write.Inside (w : Write) : Prop := w.pos + w.length ≤ w.capacity

def Process.stat (P : Process) (pid : Int) : Str :=
  signed pid ++ [' ', '('] ++ P.comm ++ [')', ' ', P.state, ' '] ++ digits P.ppid ++ P.rest

def procDir : Str := "/proc/".toList

def statName : Str := "/stat".toList

def cmdlineName : Str := "/cmdline".toList

def statPath (pid : Int) : Str := procDir ++ signed pid ++ statName

def cmdlinePath (pid : Int) : Str := procDir ++ signed pid ++ cmdlineName

def sizeofBuffer : Nat := 100

/-- `sscanf(buffer, "%*[^ ] %*[^ ] %*[^ ] %d", &ppid)` -/
def scanPpid (buffer : Str) : Int :=
  match scan [.upTo ' ', .white, .upTo ' ', .white, .upTo ' ', .white, .num] buffer with
  | [_, _, _, .num n] => int32 n
  | _ => 0

def pid2ppid (proc : Int → Option Process) (pid : Int) : Int × List Write :=
  let name := cut sizeofBuffer (statPath pid)
  match proc pid with
  | none => (0, [⟨0, name.length, sizeofBuffer⟩])
  | some P =>
    let data := (P.stat pid).take sizeofBuffer
    let buffer := data.dropLast.takeWhile (· != nul)
    (scanPpid buffer, [⟨0, name.length, sizeofBuffer⟩, ⟨0, data.length, sizeofBuffer⟩,
      ⟨data.length - 1, 1, sizeofBuffer⟩])

/-- `basename` ends its argument in front of the slashes at its end. -/
def basenameWrites (path : Str) (pos : Nat) : List Write :=
  let stripped := path.rdropWhile (· == '/')
  if stripped = [] ∨ stripped = path then [] else [⟨pos + stripped.length, 1, sizeofBuffer⟩]

def sizeofName : Nat := 512

/-- `getpname`, with what the stack has behind the name of the file. -/
def getpname (proc : Int → Option Process) (junk : Str) (pid : Int) : Str × List Write :=
  let name := cut sizeofBuffer (cmdlinePath pid)
  match proc pid with
  | none => ("unkown".toList, [⟨0, name.length, sizeofBuffer⟩])
  | some P =>
    let data := P.cmdline.take sizeofBuffer
    let buffer := if data = [] then name ++ junk
      else data.dropLast ++ [nul] ++ (name ++ junk).drop data.length
    -- behind the first zero of what has been read
    let arg := (strAt buffer 0).length + 1
    let b := FlWrapper.basename (strAt buffer 0)
    let script := strAt buffer arg
    let called := data ≠ [] ∧ b ∈ interpreters ∧ script ≠ [] ∧ script.head? ≠ some '-'
    let p := if called then (b ++ '(' :: FlWrapper.basename script ++ [')']).take (sizeofName - 1)
      else b.take (sizeofName - 1)
    (p, [⟨0, name.length, sizeofBuffer⟩, ⟨0, data.length, sizeofBuffer⟩,
      ⟨data.length - 1, min 1 data.length, sizeofBuffer⟩,
      ⟨0, p.length + 1, sizeofName⟩] ++ basenameWrites (strAt buffer 0) 0 ++
      if called then basenameWrites script arg else [])

def sizeofCmdtxt : Nat := 4096

/-- `cmdtxt` with `txtpos`, and the static `l`. -/
structure State where
  cmdtxt : Buffer
  l : Str

/-- What `addptree` does with a process; its two calls of `getpname` find their own memory. -/
def addName (proc : Int → Option Process) (junk : Int → Bool → Str) (pid : Int) (st : State) : State :=
  let p := (getpname proc (junk pid false) pid).1
  let q := (getpname proc (junk pid true) pid).1
  if st.l ≠ p then ⟨print sizeofCmdtxt st.cmdtxt ((if st.cmdtxt.pos ≠ 0 then ['.'] else []) ++ q), q⟩
  else ⟨print sizeofCmdtxt st.cmdtxt ['*'], p⟩

def addptree (proc : Int → Option Process) (junk : Int → Bool → Str) (basepid : Int) :
    Nat → Int → State → Option State
  | 0, _, _ => none
  | fuel + 1, pid, st =>
    if pid = 0 ∨ pid = basepid then some st
    else (addptree proc junk basepid fuel (pid2ppid proc pid).1 st).map (addName proc junk pid)

def start : State := ⟨⟨fun _ => nul, 0, []⟩, []⟩

end Functions

section Statement

/-- The processes from one up to the base, or to the oldest one. -/
inductive Ancestors (proc : Int → Option Process) (basepid : Int) : Int → List (Int × Process) → Prop
  | stop {pid : Int} (h : pid = 0 ∨ pid = basepid) : Ancestors proc basepid pid []
  | step {pid : Int} {P : Process} {chain : List (Int × Process)} (h : ¬(pid = 0 ∨ pid = basepid))
      (hproc : proc pid = some P) (hchain : Ancestors proc basepid P.ppid chain) :
      Ancestors proc basepid pid ((pid, P) :: chain)

/-- A process that `fl_wrapper_init` runs in, with its ancestors. -/
structure Family where
  proc : Int → Option Process
  basepid_txt : Option Str
  pid : Nat
  pid_int : pid ≤ 2147483647
  chain : List (Int × Process)
  ancestors : Ancestors proc ((basepid_txt.map atoi).getD 0) pid chain

def Family.basepid (f : Family) : Int := (f.basepid_txt.map atoi).getD 0

/-- What can be seen of the arguments of a process. -/
def Process.seen (P : Process) : Str := (P.cmdline.take sizeofBuffer).dropLast

def Process.first (P : Process) : Str := P.seen.takeWhile (· != nul)

def Process.second (P : Process) : Str := (P.seen.drop (P.first.length + 1)).takeWhile (· != nul)

/-- The program of a process, or an interpreter with its script. -/
def Process.name (P : Process) : Str :=
  if FlWrapper.basename P.first ∈ interpreters ∧ P.second ≠ [] ∧ P.second.head? ≠ some '-' then
    FlWrapper.basename P.first ++ '(' :: FlWrapper.basename P.second ++ [')']
  else FlWrapper.basename P.first

/-- What is listed behind a name. -/
def behind : Str → List Str → Str
  | _, [] => []
  | l, n :: names => (if n = l then ['*'] else '.' :: n) ++ behind n names

/-- The names with points between them, and a star for each repetition. -/
def listing : List Str → Str
  | [] => []
  | n :: names => n ++ behind n names

/-- From the oldest process to the current one. -/
def Family.names (f : Family) : List Str := f.chain.reverse.map fun x => x.2.name

structure Listed (f : Family) (junk : Int → Bool → Str) : Prop where
  parents : ∀ x ∈ f.chain, (pid2ppid f.proc x.1).1 = x.2.ppid
  names : ∀ x ∈ f.chain, ∀ second, (getpname f.proc (junk x.1 second) x.1).1 = x.2.name
  writes : ∀ x ∈ f.chain, ∀ second, ∀ w ∈ (pid2ppid f.proc x.1).2 ++
    (getpname f.proc (junk x.1 second) x.1).2, w.Inside
  text : ∃ fuel st, addptree f.proc junk f.basepid fuel f.pid start = some st ∧
    st.cmdtxt.Inside sizeofCmdtxt ∧ Holds st.cmdtxt.mem (listing f.names)

/-- What stands behind the next blank. -/
def behindBlank (s : Str) : Str := (s.dropWhile (· != ' ')).dropWhile space

/-- The number behind the second blank of a name, or zero. -/
def misread (comm : Str) : Int := ((readInt (behindBlank (behindBlank comm))).map fun r => int32 r.1).getD 0

/-- The names of the processes have no blanks, or by chance with them the parent's number; the command
lines have an argument, and those of interpreters a second one, or by chance the length of the name
of their file; and the list is shorter than the buffer. -/
structure Fits (f : Family) : Prop where
  blank : ∀ x ∈ f.chain, ' ' ∈ x.2.comm → misread x.2.comm = x.2.ppid
  cmdline : ∀ x ∈ f.chain, x.2.cmdline ≠ []
  script : ∀ x ∈ f.chain, FlWrapper.basename x.2.first ∈ interpreters →
    nul ∈ x.2.seen ∨ x.2.cmdline.length = (cmdlinePath x.1).length
  short : (listing f.names).length < sizeofCmdtxt

end Statement

section Parent

variable {P : Process} {pid : Int} {proc : Int → Option Process} {s t u w : Str} {c : Char}

theorem dropWhile_stop {p : Char → Bool} (hc : p c = false) (s t : Str) :
    (s ++ c :: t).dropWhile p = s.dropWhile p ++ c :: t := by
  induction s with
  | nil => exact List.dropWhile_cons_of_neg (by simp [hc])
  | cons d s ih =>
    rw [List.cons_append, List.dropWhile_cons, List.dropWhile_cons]
    split
    · exact ih
    · rfl

theorem signed_nat (n : Nat) : signed (n : Int) = digits n := rfl

theorem signed_no_blank (pid : Int) : ' ' ∉ signed pid ∧ signed pid ≠ [] := by
  have hdigits : ∀ n, ' ' ∉ digits n := fun n h => absurd (digit_of_mem h) (by decide)
  cases pid with
  | ofNat n => exact ⟨hdigits n, digits_ne_nil n⟩
  | negSucc n => exact ⟨fun h => (List.mem_cons.mp h).elim (by decide) (hdigits _), List.cons_ne_nil _ _⟩

/-- The format with `n` words in front of the number. -/
def parentFormat : Nat → List Directive
  | 0 => [.num]
  | n + 1 => .upTo ' ' :: .white :: parentFormat n

theorem scan_word (hw : ' ' ∉ w) (hne : w ≠ []) (n : Nat) (t : Str) :
    scan (parentFormat (n + 1)) (w ++ ' ' :: t) = .str w :: scan (parentFormat n) (t.dropWhile space) := by
  have hblank : (' ' :: t).dropWhile space = t.dropWhile space := List.dropWhile_cons_of_pos rfl
  rw [parentFormat, scan_upTo_free hw hne, scan, hblank]

/-- The number behind the words that are skipped. -/
def found (values : List Value) : Int :=
  match values with
  | [_, _, _, .num n] => int32 n
  | _ => 0

theorem scanPpid_eq (buffer : Str) : scanPpid buffer = found (scan (parentFormat 3) buffer) := rfl

theorem found_num (a b c : Value) (s : Str) : found (a :: b :: c :: scan [.num] s) =
    ((readInt (s.dropWhile space)).map fun r => int32 r.1).getD 0 := by
  rw [scan]
  cases readInt (s.dropWhile space) with
  | none => rfl
  | some r => rfl

theorem readNat_stop (hc : c.isDigit = false) (s t : Str) :
    (readNat (s ++ c :: t)).map Prod.fst = (readNat s).map Prod.fst := by
  rw [readNat, readNat, takeWhile_append_stop hc]
  split
  · rfl
  · rfl

/-- A number ends in front of a character that is neither a digit nor a sign. -/
theorem readInt_stop (hc : c.isDigit = false) (hsign : c ≠ '-' ∧ c ≠ '+') (s t : Str) :
    (readInt (s ++ c :: t)).map Prod.fst = (readInt s).map Prod.fst := by
  have hnat : ∀ (f : Nat → Int) s, ((readNat (s ++ c :: t)).map fun r => (f r.1, r.2)).map Prod.fst =
      ((readNat s).map fun r => (f r.1, r.2)).map Prod.fst := by
    intro f s
    have hstop := congrArg (Option.map f) (readNat_stop hc s t)
    rw [Option.map_map, Option.map_map] at hstop ⊢
    exact hstop
  cases s with
  | nil =>
    have hnone : readInt (c :: t) = none := by
      have hempty : readNat (c :: t) = none := by
        rw [readNat, List.takeWhile_cons_of_neg (by simp [hc]), if_pos rfl]
      rw [readInt]
      · rw [hempty]
        rfl
      · exact fun _ h => hsign.1 (List.cons.inj h).1
      · exact fun _ h => hsign.2 (List.cons.inj h).1
    rw [List.nil_append, hnone]
    rfl
  | cons d s =>
    rw [List.cons_append]
    by_cases hminus : d = '-'
    · rw [hminus]
      exact hnat (fun n => -(n : Int)) s
    · by_cases hplus : d = '+'
      · rw [hplus]
        exact hnat (fun n => (n : Int)) s
      · have hread : ∀ s, readInt (d :: s) = (readNat (d :: s)).map fun r => ((r.1 : Int), r.2) := by
          intro s
          rw [readInt]
          · exact fun _ h => hminus (List.cons.inj h).1
          · exact fun _ h => hplus (List.cons.inj h).1
        rw [hread, hread]
        exact hnat (fun n => (n : Int)) (d :: s)

theorem letter_spec (P : Process) : P.state.isDigit = false ∧ space P.state = false ∧
    P.state ∉ [' ', '-', '+', nul] := by
  have hletter := P.letter
  refine ⟨?_, ?_, ?_⟩
  · rw [Bool.eq_false_iff]
    intro h
    rw [Char.isDigit_iff_toNat] at h
    have h9 : '9'.toNat = 57 := rfl
    omega
  · rw [Bool.eq_false_iff]
    intro h
    rw [Scanf.space, Bool.or_eq_true, beq_iff_eq, Bool.and_eq_true, decide_eq_true_eq, decide_eq_true_eq] at h
    rcases h with h | h
    · rw [h] at hletter
      exact absurd hletter (by decide)
    · omega
  · intro h
    have hlow : [' ', '-', '+', nul].all (fun c => c.toNat < 65) = true := rfl
    have hlt := of_decide_eq_true (List.all_eq_true.mp hlow _ h)
    omega

theorem readInt_letter (P : Process) (t : Str) : readInt (P.state :: t) = none := by
  obtain ⟨hdigit, -, hsign⟩ := letter_spec P
  have hempty : readNat (P.state :: t) = none := by
    rw [readNat, List.takeWhile_cons_of_neg (by simp [hdigit]), if_pos rfl]
  rw [readInt]
  · rw [hempty]
    rfl
  · exact fun _ h => hsign (by rw [(List.cons.inj h).1]; simp)
  · exact fun _ h => hsign (by rw [(List.cons.inj h).1]; simp)

theorem dropWhile_blank (s : Str) : (' ' :: s).dropWhile space = s.dropWhile space :=
  List.dropWhile_cons_of_pos rfl

theorem behindBlank_append (hw : ' ' ∉ w) (s : Str) : behindBlank (w ++ ' ' :: s) = s.dropWhile space := by
  have hrun : ∀ c ∈ w, (c != ' ') = true := fun c hc => bne_iff_ne.mpr fun h => hw (h ▸ hc)
  rw [behindBlank, List.dropWhile_append_of_pos hrun, List.dropWhile_cons_of_neg (by simp), dropWhile_blank]

theorem behindBlank_none (hw : ' ' ∉ w) : behindBlank w = [] := by
  have hrun : w.dropWhile (· != ' ') = [] := by
    rw [List.dropWhile_eq_nil_iff]
    exact fun c hc => bne_iff_ne.mpr fun h => hw (h ▸ hc)
  rw [behindBlank, hrun]
  rfl

/-- The name from its first character on, up to the state and the parent. -/
theorem found_name (P : Process) (t : Str) (ht : ∀ c, t.head? = some c → c.isDigit = false) (a : Value) :
    found (a :: scan (parentFormat 2) ('(' :: P.comm ++ ')' :: ' ' :: P.state :: ' ' ::
    (digits P.ppid ++ t))) =
      if ' ' ∈ P.comm then misread P.comm else P.ppid := by
  obtain ⟨hdigit, hspace, hstate⟩ := letter_spec P
  have hletter : ' ' ∉ [P.state] := fun h => hstate (by rw [← List.mem_singleton.mp h]; simp)
  have hthird : scan (parentFormat 1) (P.state :: ' ' :: (digits P.ppid ++ t)) =
      .str [P.state] :: scan (parentFormat 0) ((digits P.ppid ++ t).dropWhile space) :=
    scan_word hletter (List.cons_ne_nil _ _) 0 _
  split
  next hblank =>
    obtain ⟨w, r, hcomm, hw⟩ := List.eq_append_cons_of_mem hblank
    have hword : ' ' ∉ '(' :: w := by simp [hw]
    have htext : ∀ tail, '(' :: P.comm ++ ')' :: tail = ('(' :: w) ++ ' ' :: (r ++ ')' :: tail) := by
      simp [hcomm]
    rw [htext, scan_word hword (List.cons_ne_nil _ _), dropWhile_stop rfl, misread, hcomm,
      behindBlank_append hw]
    generalize hr : r.dropWhile space = r'
    have hhead : ∀ c, r'.head? = some c → space c = false := by
      intro c hc
      have hnot := List.head?_dropWhile_not space r
      rw [hr, hc] at hnot
      exact hnot
    by_cases hsecond : ' ' ∈ r'
    · obtain ⟨u, v, rfl, hu⟩ := List.eq_append_cons_of_mem hsecond
      have hne : u ≠ [] := by
        rintro rfl
        exact absurd (hhead ' ' rfl) (by decide)
      rw [List.append_assoc, List.cons_append, scan_word hu hne, parentFormat, found_num, dropWhile_stop rfl,
        dropWhile_stop rfl, List.dropWhile_idempotent, behindBlank_append hu]
      have hstop := congrArg (Option.map int32) (@readInt_stop ')' rfl (by decide) (v.dropWhile space)
        (' ' :: P.state :: ' ' :: (digits P.ppid ++ t)))
      rw [Option.map_map, Option.map_map] at hstop
      exact congrArg (·.getD 0) hstop
    · rw [behindBlank_none hsecond]
      have hlast : ' ' ∉ r' ++ [')'] := by simp [hsecond]
      have hrest : r' ++ ')' :: ' ' :: P.state :: ' ' :: (digits P.ppid ++ t) =
          (r' ++ [')']) ++ ' ' :: (P.state :: ' ' :: (digits P.ppid ++ t)) := by simp
      have hletters : ¬space P.state = true := by simp [hspace]
      rw [hrest, scan_word hlast (by simp), parentFormat, found_num, List.dropWhile_cons_of_neg hletters,
        List.dropWhile_cons_of_neg hletters, readInt_letter]
      rfl
  next hblank =>
    have hword : ' ' ∉ '(' :: P.comm ++ [')'] := by simp [hblank]
    have htext : '(' :: P.comm ++ ')' :: ' ' :: P.state :: ' ' :: (digits P.ppid ++ t) =
        ('(' :: P.comm ++ [')']) ++ ' ' :: (P.state :: ' ' :: (digits P.ppid ++ t)) := by simp
    have hnum : (digits P.ppid ++ t).dropWhile space = digits P.ppid ++ t :=
      dropWhile_none fun c hc => signed_head P.ppid hc
    have hread : readInt (digits P.ppid ++ t) = some ((P.ppid : Int), t) := readInt_signed P.ppid ht
    rw [htext, scan_word hword (List.cons_ne_nil _ _), List.dropWhile_cons_of_neg (by simp [hspace]), hthird,
      parentFormat, found_num, hnum, hnum, hread, Option.map_some, Option.getD_some, int32_small P.ppid_int]

theorem digits_short {n : Nat} (hn : n ≤ 2147483647) : (digits n).length ≤ 10 :=
  (Nat.length_toDigits_le_iff (by decide) (by decide)).mpr (by omega)

/-- The file up to the number of the parent. -/
def statFront (P : Process) (n : Nat) : Str :=
  digits n ++ ' ' :: ('(' :: P.comm ++ ')' :: ' ' :: P.state :: ' ' :: digits P.ppid)

theorem stat_eq (P : Process) (n : Nat) : P.stat n = statFront P n ++ P.rest := by
  rw [Process.stat, signed_nat]
  simp [statFront]

theorem statFront_short (P : Process) {n : Nat} (hn : n ≤ 2147483647) : (statFront P n).length ≤ 41 := by
  have hpid := digits_short hn
  have hppid := digits_short P.ppid_int
  have hcomm := P.comm_short
  simp only [statFront, List.length_append, List.length_cons]
  omega

theorem nul_digits (n : Nat) : nul ∉ digits n := fun h => absurd (digit_of_mem h) (by decide)

theorem statFront_free (P : Process) (n : Nat) : nul ∉ statFront P n := by
  have hstate : nul ≠ P.state := fun h => (letter_spec P).2.2 (by rw [← h]; simp)
  have hconst : nul ≠ ' ' ∧ nul ≠ '(' ∧ nul ≠ ')' := by decide
  simp only [statFront, List.mem_append, List.mem_cons, not_or]
  exact ⟨nul_digits n, hconst.1, ⟨hconst.2.1, P.comm_free⟩, hconst.2.2, hconst.1, hstate, hconst.1,
    nul_digits _⟩

/-- What is read of the file, without the last byte. -/
theorem stat_read (P : Process) {n : Nat} (hn : n ≤ 2147483647) :
    ∃ t, ((P.stat n).take sizeofBuffer).dropLast.takeWhile (· != nul) = statFront P n ++ t ∧
      ∀ c, t.head? = some c → c.isDigit = false := by
  obtain ⟨more, hmore⟩ := P.more
  have hshort := statFront_short P hn
  have hsize : sizeofBuffer - (statFront P n).length = (sizeofBuffer - (statFront P n).length - 1) + 1 := by
    rw [sizeofBuffer]
    omega
  refine ⟨(P.rest.take (sizeofBuffer - (statFront P n).length)).dropLast, ?_, fun c hc => ?_⟩
  · have hne : P.rest.take (sizeofBuffer - (statFront P n).length) ≠ [] := by
      rw [hmore, hsize, List.take_succ_cons]
      exact List.cons_ne_nil _ _
    have hfront : (statFront P n).length ≤ sizeofBuffer := by
      rw [sizeofBuffer]
      omega
    rw [stat_eq, List.take_append, List.take_of_length_le hfront, List.dropLast_append_of_ne_nil hne,
      List.takeWhile_eq_self_iff]
    intro c hc
    refine bne_iff_ne.mpr fun hnul => ?_
    subst hnul
    rcases List.mem_append.mp hc with hc | hc
    · exact statFront_free P n hc
    · exact P.rest_free (List.mem_of_mem_take (List.mem_of_mem_dropLast hc))
  · rw [hmore, hsize, List.take_succ_cons] at hc
    cases hrest : more.take (sizeofBuffer - (statFront P n).length - 1) with
    | nil =>
      rw [hrest] at hc
      cases hc
    | cons d s =>
      rw [hrest] at hc
      cases hc
      rfl

/-- The parent is read, if there is no blank in the name. -/
theorem pid2ppid_eq {n : Nat} (hn : n ≤ 2147483647) (hproc : proc n = some P) :
    (pid2ppid proc n).1 = if ' ' ∈ P.comm then misread P.comm else P.ppid := by
  obtain ⟨t, hread, ht⟩ := stat_read P hn
  have hpid : (pid2ppid proc n).1 =
    scanPpid (((P.stat n).take sizeofBuffer).dropLast.takeWhile (· != nul)) := by
    rw [pid2ppid, hproc]
  have hword : ' ' ∉ digits n := (signed_no_blank n).1
  have htext : statFront P n ++ t = digits n ++ ' ' ::
      ('(' :: P.comm ++ ')' :: ' ' :: P.state :: ' ' :: (digits P.ppid ++ t)) := by simp [statFront]
  have hopen : ∀ s, ('(' :: s).dropWhile space = '(' :: s := fun s => List.dropWhile_cons_of_neg (by decide)
  rw [hpid, hread, scanPpid_eq, htext, scan_word hword (digits_ne_nil n), List.cons_append, hopen,
    ← List.cons_append]
  exact found_name P t ht _

end Parent

section Names

variable {P : Process} {n : Nat} {proc : Int → Option Process} {junk script path u w : Str}

theorem basename_last (hne : w ≠ []) (hw : '/' ∉ w) (u : Str) : FlWrapper.basename (u ++ '/' :: w) = w := by
  have hstripped : (u ++ '/' :: w).rdropWhile (· == '/') = u ++ '/' :: w := by
    rw [List.rdropWhile_eq_self_iff]
    intro hnil
    rw [List.getLast_append_of_ne_nil _ (List.cons_ne_nil _ _), List.getLast_cons hne]
    exact fun h => hw (beq_iff_eq.mp h ▸ List.getLast_mem hne)
  have hrun : ∀ c ∈ w.reverse, (c != '/') = true :=
    fun c hc => bne_iff_ne.mpr fun h => hw (h ▸ List.mem_reverse.mp hc)
  rw [FlWrapper.basename, hstripped, if_neg (by simp), if_neg (by simp), List.rtakeWhile,
    List.reverse_append, List.reverse_cons,
    List.append_assoc, List.takeWhile_append_of_pos hrun, List.singleton_append,
    List.takeWhile_cons_of_neg (by simp), List.append_nil, List.reverse_reverse]

theorem basename_short (path : Str) : (FlWrapper.basename path).length ≤ path.length + 1 := by
  rw [FlWrapper.basename]
  split_ifs
  · exact Nat.succ_le_succ (Nat.zero_le _)
  · exact Nat.succ_le_succ (Nat.zero_le _)
  · have htake : ((path.rdropWhile (· == '/')).rtakeWhile (· != '/')).length ≤
      (path.rdropWhile (· == '/')).length :=
      (List.rtakeWhile_suffix _ _).length_le
    have hdrop : (path.rdropWhile (· == '/')).length ≤ path.length := (List.rdropWhile_prefix _ _).length_le
    omega

theorem basename_ne (path : Str) : FlWrapper.basename path ≠ [] := by
  rw [FlWrapper.basename]
  split_ifs with hempty hslashes
  · exact List.cons_ne_nil _ _
  · exact List.cons_ne_nil _ _
  · rw [Ne, List.rtakeWhile_eq_nil_iff]
    intro h
    have hlast := h hslashes
    have hend := List.rdropWhile_last_not (p := (· == '/')) path hslashes
    simp at hlast hend
    exact hend hlast

theorem mem_basename {c : Char} (h : c ∈ FlWrapper.basename path) : c ∈ path ∨ c = '.' ∨ c = '/' := by
  rw [FlWrapper.basename] at h
  split_ifs at h
  · exact .inr (.inl (List.mem_singleton.mp h))
  · exact .inr (.inr (List.mem_singleton.mp h))
  · exact .inl ((List.rdropWhile_prefix _ _).subset ((List.rtakeWhile_suffix _ _).subset h))

/-- An interpreter with its script. -/
def callName (b script : Str) : Str :=
  if b ∈ interpreters ∧ script ≠ [] ∧ script.head? ≠ some '-' then
    b ++ '(' :: FlWrapper.basename script ++ [')']
  else b

theorem name_eq (P : Process) : P.name = callName (FlWrapper.basename P.first) P.second := rfl

theorem callName_length (b script : Str) : (callName b script).length ≤ b.length + script.length + 3 := by
  have hshort := basename_short script
  rw [callName]
  split
  · simp only [List.length_append, List.length_cons, List.length_nil]
    omega
  · omega

theorem seen_short (P : Process) : P.seen.length ≤ 99 := by
  have htake := List.length_take_le sizeofBuffer P.cmdline
  rw [sizeofBuffer] at htake
  rw [Process.seen, List.length_dropLast, sizeofBuffer]
  omega

theorem first_short (P : Process) : P.first.length ≤ 99 :=
  Nat.le_trans (List.takeWhile_prefix _).length_le (seen_short P)

theorem second_short (P : Process) : P.second.length ≤ 99 := by
  have htake : P.second.length ≤ (P.seen.drop (P.first.length + 1)).length :=
    (List.takeWhile_prefix _).length_le
  have hseen := seen_short P
  rw [List.length_drop] at htake
  omega

theorem take_callName {b : Str} (hb : b.length ≤ 100) (hscript : script.length ≤ 99) :
    (callName b script).take (sizeofName - 1) = callName b script := by
  have hlength := callName_length b script
  refine List.take_of_length_le ?_
  rw [sizeofName]
  omega

theorem basename_first (P : Process) : (FlWrapper.basename P.first).length ≤ 100 :=
  Nat.le_trans (basename_short _) (Nat.succ_le_succ (first_short P))

theorem cmdlinePath_eq (n : Nat) : cmdlinePath n = procDir ++ digits n ++ cmdlineName := rfl

theorem cmdlineName_eq : cmdlineName = '/' :: "cmdline".toList := rfl

theorem cmdlinePath_length (n : Nat) : (cmdlinePath n).length = (digits n).length + 14 := by
  have hdir : procDir.length = 6 := rfl
  have hname : cmdlineName.length = 8 := rfl
  rw [cmdlinePath_eq, List.length_append, List.length_append, hdir, hname]
  omega

theorem cmdlinePath_short (hn : n ≤ 2147483647) :
    14 < (cmdlinePath n).length ∧ (cmdlinePath n).length ≤ 24 := by
  have hpos := List.length_pos_iff.mpr (digits_ne_nil n)
  have hle := digits_short hn
  rw [cmdlinePath_length]
  omega

theorem cmdlinePath_free (n : Nat) : ∀ c ∈ cmdlinePath n, c ≠ nul ∧ c ≠ '-' := by
  intro c hc
  have hconst : ∀ c ∈ procDir ++ cmdlineName, c ≠ nul ∧ c ≠ '-' := by
    have hall : (procDir ++ cmdlineName).all (fun c => c != nul && c != '-') = true := rfl
    intro c hc
    have hone := List.all_eq_true.mp hall c hc
    simpa using hone
  rw [cmdlinePath_eq] at hc
  rcases List.mem_append.mp hc with hc | hc
  · rcases List.mem_append.mp hc with hc | hc
    · exact hconst c (List.mem_append_left _ hc)
    · have hdigit := digit_of_mem hc
      constructor
      · rintro rfl
        exact absurd hdigit (by decide)
      · rintro rfl
        exact absurd hdigit (by decide)
  · exact hconst c (List.mem_append_right _ hc)

theorem cut_cmdlinePath (hn : n ≤ 2147483647) :
    cut sizeofBuffer (cmdlinePath n) = cmdlinePath n ++ [nul] := by
  have hshort := (cmdlinePath_short hn).2
  rw [cut, if_neg (by decide), List.take_of_length_le]
  rw [sizeofBuffer]
  omega

/-- Without a command line the name of its file is taken. -/
theorem getpname_empty (hn : n ≤ 2147483647) (hproc : proc n = some P) (hempty : P.cmdline = [])
    (junk : Str) :
    (getpname proc junk n).1 = "cmdline".toList := by
  have hbuffer : strAt (cut sizeofBuffer (cmdlinePath n) ++ junk) 0 = cmdlinePath n := by
    rw [cut_cmdlinePath hn, List.append_assoc, List.singleton_append, strAt, List.drop_zero]
    exact takeWhile_stop (fun c hc => bne_iff_ne.mpr (cmdlinePath_free n c hc).1) (by decide)
  have hbase : FlWrapper.basename (cmdlinePath n) = "cmdline".toList := by
    rw [cmdlinePath_eq, cmdlineName_eq]
    exact basename_last (by decide) (by decide) _
  rw [getpname, hproc]
  simp only [hempty, List.take_nil, if_true, hbuffer, hbase]
  rfl

/-- What stands in the buffer behind what has been read. -/
def left (n : Nat) (junk : Str) (P : Process) : Str :=
  (cmdlinePath n ++ nul :: junk).drop (P.cmdline.take sizeofBuffer).length

theorem buffer_read (hn : n ≤ 2147483647) (P : Process) (junk : Str) :
    (P.cmdline.take sizeofBuffer).dropLast ++ [nul] ++
    (cut sizeofBuffer (cmdlinePath n) ++ junk).drop (P.cmdline.take sizeofBuffer).length =
      P.seen ++ nul :: left n junk P := by
  rw [cut_cmdlinePath hn, List.append_assoc, List.append_assoc, List.singleton_append, List.singleton_append]
  rfl

theorem getpname_read (hn : n ≤ 2147483647) (hproc : proc n = some P) (hne : P.cmdline ≠ []) (junk : Str) :
    (getpname proc junk n).1 = (callName (FlWrapper.basename P.first)
      (strAt (P.seen ++ nul :: left n junk P) (P.first.length + 1))).take (sizeofName - 1) := by
  have hdata : P.cmdline.take sizeofBuffer ≠ [] := by
    rw [Ne, List.take_eq_nil_iff, not_or]
    exact ⟨by decide, hne⟩
  have hbuffer := buffer_read hn P junk
  have hfirst : strAt (P.seen ++ nul :: left n junk P) 0 = P.first := takeWhile_append_stop (by decide)
  rw [getpname, hproc]
  simp only [if_neg hdata, hbuffer, hfirst]
  rw [callName]
  simp only [ne_eq, hdata, not_false_eq_true, true_and]
  split
  · rfl
  · rfl

theorem seen_split (h : nul ∈ P.seen) : ∃ t, P.seen = P.first ++ nul :: t ∧
    P.second = t.takeWhile (· != nul) := by
  obtain ⟨w, t, hseen, hw⟩ := List.eq_append_cons_of_mem h
  have hfirst : P.first = w := by
    rw [Process.first, hseen]
    exact takeWhile_stop (fun c hc => bne_iff_ne.mpr fun heq => hw (heq ▸ hc)) (by decide)
  refine ⟨t, by rw [hfirst, hseen], ?_⟩
  rw [Process.second, hfirst, hseen]
  have hdrop : (w ++ nul :: t).drop (w.length + 1) = t := by
    rw [← List.drop_drop, List.drop_left]
    rfl
  rw [hdrop]

/-- The script is what has been read of it. -/
theorem script_inside (h : nul ∈ P.seen) (rest : Str) :
    strAt (P.seen ++ nul :: rest) (P.first.length + 1) = P.second := by
  obtain ⟨t, hseen, hsecond⟩ := seen_split h
  have hdrop : (P.first ++ nul :: (t ++ nul :: rest)).drop (P.first.length + 1) = t ++ nul :: rest := by
    rw [← List.drop_drop, List.drop_left]
    rfl
  rw [hsecond, strAt]
  rw [hseen, List.append_assoc, List.cons_append, hdrop]
  exact takeWhile_append_stop (by decide)

/-- With one argument it is what is left there. -/
theorem script_behind (h : nul ∉ P.seen) (rest : Str) :
    P.first = P.seen ∧ P.second = [] ∧ strAt (P.seen ++ nul :: rest) (P.first.length + 1) =
    rest.takeWhile (· != nul) := by
  have hfirst : P.first = P.seen := by
    rw [Process.first, List.takeWhile_eq_self_iff]
    exact fun c hc => bne_iff_ne.mpr fun heq => h (heq ▸ hc)
  refine ⟨hfirst, ?_, ?_⟩
  · rw [Process.second, hfirst, List.drop_of_length_le (Nat.le_succ _)]
    rfl
  · have hdrop : (P.seen ++ nul :: rest).drop (P.seen.length + 1) = rest := by
      rw [← List.drop_drop, List.drop_left]
      rfl
    rw [strAt, hfirst, hdrop]

/-- The script of an interpreter is read as it stands, or there is none. -/
theorem script_read (hn : n ≤ 2147483647)
    (hscript : nul ∈ P.seen ∨ P.cmdline.length = (cmdlinePath n).length) (junk : Str) :
    strAt (P.seen ++ nul :: left n junk P) (P.first.length + 1) = P.second := by
  by_cases hseen : nul ∈ P.seen
  · exact script_inside hseen _
  · obtain ⟨-, hsecond, hbehind⟩ := script_behind hseen (left n junk P)
    have hlength := hscript.resolve_left hseen
    have hshort := (cmdlinePath_short hn).2
    have hdata : (P.cmdline.take sizeofBuffer).length = (cmdlinePath n).length := by
      rw [List.length_take, hlength, sizeofBuffer]
      omega
    have hleft : left n junk P = nul :: junk := by rw [left, hdata, List.drop_left]
    rw [hbehind, hsecond, hleft]
    rfl

theorem second_fits (h : P.second ≠ []) : P.first.length + 1 + P.second.length ≤ 99 := by
  have hseen : nul ∈ P.seen := by
    by_contra hnot
    exact h (script_behind hnot []).2.1
  obtain ⟨t, hsplit, hsecond⟩ := seen_split hseen
  have hshort := seen_short P
  have htake : P.second.length ≤ t.length := by
    rw [hsecond]
    exact (List.takeWhile_prefix _).length_le
  rw [hsplit, List.length_append, List.length_cons] at hshort
  omega

theorem callName_congr {b script' : Str} (h : b ∈ interpreters → script = script') :
    callName b script = callName b script' := by
  by_cases hb : b ∈ interpreters
  · rw [h hb]
  · rw [callName, callName, if_neg fun hcond => hb hcond.1, if_neg fun hcond => hb hcond.1]

/-- The names are the ones of the processes, whatever the stack has. -/
theorem getpname_ok (hn : n ≤ 2147483647) (hproc : proc n = some P) (hne : P.cmdline ≠ [])
    (hscript : FlWrapper.basename P.first ∈ interpreters →
    nul ∈ P.seen ∨ P.cmdline.length = (cmdlinePath n).length) (junk : Str) :
    (getpname proc junk n).1 = P.name := by
  rw [getpname_read hn hproc hne, name_eq, callName_congr fun hb => script_read hn (hscript hb) junk]
  exact take_callName (basename_first P) (second_short P)

/-- What a stack may have. -/
def letters : Str := List.replicate 100 'x'

theorem letters_take {k : Nat} (hk : k < 100) : ∃ s, (letters.drop k).takeWhile (· != nul) = 'x' :: s := by
  obtain ⟨m, hm⟩ : ∃ m, 100 - k = m + 1 := ⟨99 - k, by omega⟩
  rw [letters, List.drop_replicate, hm, List.replicate_succ, List.takeWhile_cons_of_pos (by decide)]
  exact ⟨_, rfl⟩

/-- The text behind one argument, unless it ends in front of it. -/
theorem left_letters (hn : n ≤ 2147483647) (hlength : P.cmdline.length ≠ (cmdlinePath n).length) :
    (left n letters P).takeWhile (· != nul) ≠ [] ∧
    ((left n letters P).takeWhile (· != nul)).head? ≠ some '-' := by
  have hshort := cmdlinePath_short hn
  have hdata : (P.cmdline.take sizeofBuffer).length = min 100 P.cmdline.length := List.length_take
  rcases Nat.lt_or_ge (P.cmdline.take sizeofBuffer).length (cmdlinePath n).length with hlt | hge
  · have hdrop : left n letters P =
        (cmdlinePath n).drop (P.cmdline.take sizeofBuffer).length ++ nul :: letters := by
      rw [left, List.drop_append_of_le_length (Nat.le_of_lt hlt)]
    obtain ⟨c, s, hcs⟩ := List.exists_cons_of_ne_nil (List.ne_nil_of_length_pos
      (show 0 < ((cmdlinePath n).drop (P.cmdline.take sizeofBuffer).length).length by
        rw [List.length_drop]; omega))
    have hfree : ∀ d ∈ (cmdlinePath n).drop (P.cmdline.take sizeofBuffer).length, d ≠ nul ∧ d ≠ '-' :=
      fun d hd => cmdlinePath_free n d (List.mem_of_mem_drop hd)
    rw [hdrop, takeWhile_stop (fun d hd => bne_iff_ne.mpr (hfree d hd).1) (by decide)]
    rw [hcs] at hfree ⊢
    exact ⟨List.cons_ne_nil _ _, fun h => (hfree c List.mem_cons_self).2 (Option.some.inj h)⟩
  · obtain ⟨k, hk⟩ : ∃ k, (P.cmdline.take sizeofBuffer).length = (cmdlinePath n).length + (k + 1) :=
      ⟨(P.cmdline.take sizeofBuffer).length - (cmdlinePath n).length - 1, by omega⟩
    have hdrop : left n letters P = letters.drop k := by
      rw [left, hk, List.drop_append, List.drop_eq_nil_of_le (by omega), List.nil_append,
        Nat.add_sub_cancel_left]
      rfl
    obtain ⟨s, hs⟩ := letters_take (show k < 100 by omega)
    rw [hdrop, hs]
    exact ⟨List.cons_ne_nil _ _, fun h => absurd (Option.some.inj h) (by decide)⟩

theorem getpname_bad (hn : n ≤ 2147483647) (hproc : proc n = some P)
    (hname : (getpname proc letters n).1 = P.name) :
    P.cmdline ≠ [] ∧
      (FlWrapper.basename P.first ∈ interpreters →
      nul ∈ P.seen ∨ P.cmdline.length = (cmdlinePath n).length) := by
  have hne : P.cmdline ≠ [] := by
    intro hempty
    have hseen : P.seen = [] := by rw [Process.seen, hempty]; rfl
    have hdot : P.name = ['.'] := by
      rw [Process.name, Process.second, Process.first, hseen]
      rfl
    rw [getpname_empty hn hproc hempty, hdot] at hname
    exact absurd hname (by decide)
  refine ⟨hne, fun hinterpreter => ?_⟩
  by_contra hnot
  rw [not_or] at hnot
  obtain ⟨-, hsecond, hbehind⟩ := script_behind hnot.1 (left n letters P)
  obtain ⟨hsome, hdash⟩ := left_letters hn hnot.2
  have hb : (FlWrapper.basename P.first).length ≤ 4 := by
    have hall : ∀ b ∈ interpreters, b.length ≤ 4 := by
      simp only [interpreters, List.forall_mem_cons]
      decide
    exact hall _ hinterpreter
  rw [getpname_read hn hproc hne, hbehind, name_eq, hsecond, callName, callName,
    if_pos ⟨hinterpreter, hsome, hdash⟩,
    if_neg (by simp)] at hname
  have hlength := congrArg List.length hname
  simp only [List.length_take, List.length_append, List.length_cons, List.length_nil, sizeofName] at hlength
  omega

theorem nul_name (P : Process) : nul ∉ P.name := by
  have hfirst : nul ∉ FlWrapper.basename P.first := by
    intro h
    rcases mem_basename h with h | h | h
    · exact absurd (List.mem_takeWhile_imp h) (by decide)
    · exact absurd h (by decide)
    · exact absurd h (by decide)
  have hsecond : nul ∉ FlWrapper.basename P.second := by
    intro h
    rcases mem_basename h with h | h | h
    · exact absurd (List.mem_takeWhile_imp h) (by decide)
    · exact absurd h (by decide)
    · exact absurd h (by decide)
  have hconst : nul ≠ '(' ∧ nul ≠ ')' := by decide
  rw [name_eq, callName]
  split
  · simp only [List.mem_append, List.mem_cons, List.not_mem_nil, or_false, not_or]
    exact ⟨⟨hfirst, hconst.1, hsecond⟩, hconst.2⟩
  · exact hfirst

theorem name_ne (P : Process) : P.name ≠ [] := by
  rw [name_eq, callName]
  split
  · exact List.append_ne_nil_of_right_ne_nil _ (List.cons_ne_nil _ _)
  · exact basename_ne _

end Names

section Writes

variable {P : Process} {n : Nat} {proc : Int → Option Process} {junk : Str}

theorem inside_mk {pos length capacity : Nat} (h : pos + length ≤ capacity) :
    (Write.mk pos length capacity).Inside := h

theorem cut_inside (capacity : Nat) (text : Str) :
    (Write.mk 0 (cut capacity text).length capacity).Inside := by
  refine inside_mk ?_
  rw [cut]
  split
  · exact Nat.zero_le _
  · rw [List.length_append, List.length_take, List.length_singleton]
    omega

theorem pid2ppid_inside (proc : Int → Option Process) (pid : Int) :
    ∀ w ∈ (pid2ppid proc pid).2, w.Inside := by
  intro w hw
  rw [pid2ppid] at hw
  cases hproc : proc pid with
  | none =>
    rw [hproc] at hw
    rw [List.mem_singleton.mp hw]
    exact cut_inside _ _
  | some P =>
    rw [hproc] at hw
    have hdata : ((P.stat pid).take sizeofBuffer).length ≤ 100 := List.length_take_le _ _
    simp only [List.mem_cons, List.not_mem_nil, or_false] at hw
    rcases hw with rfl | rfl | rfl
    · exact cut_inside _ _
    · exact inside_mk (by rw [sizeofBuffer] at *; omega)
    · exact inside_mk (by rw [sizeofBuffer] at *; omega)

theorem basenameWrites_inside {path : Str} {pos : Nat} (h : pos + path.length ≤ sizeofBuffer) :
    ∀ w ∈ basenameWrites path pos, w.Inside := by
  intro w hw
  rw [basenameWrites] at hw
  split at hw
  · cases hw
  next hnot =>
    rw [not_or] at hnot
    have hfront : path.rdropWhile (· == '/') <+: path := List.rdropWhile_prefix _ _
    have hlt : (path.rdropWhile (· == '/')).length < path.length :=
      Nat.lt_of_le_of_ne hfront.length_le fun heq => hnot.2 (hfront.eq_of_length heq)
    rw [List.mem_singleton.mp hw]
    exact inside_mk (by omega)

theorem getpname_inside (hn : n ≤ 2147483647) (hproc : proc n = some P) (hne : P.cmdline ≠ [])
    (hscript : FlWrapper.basename P.first ∈ interpreters →
    nul ∈ P.seen ∨ P.cmdline.length = (cmdlinePath n).length) (junk : Str) :
    ∀ w ∈ (getpname proc junk n).2, w.Inside := by
  have hdata : P.cmdline.take sizeofBuffer ≠ [] := by
    rw [Ne, List.take_eq_nil_iff, not_or]
    exact ⟨by decide, hne⟩
  have hlength : (P.cmdline.take sizeofBuffer).length ≤ 100 := List.length_take_le _ _
  have hbuffer := buffer_read hn P junk
  have hfirst : strAt (P.seen ++ nul :: left n junk P) 0 = P.first := takeWhile_append_stop (by decide)
  intro w hw
  rw [getpname, hproc] at hw
  simp only [if_neg hdata, hbuffer, hfirst] at hw
  rcases List.mem_append.mp hw with hw | hw
  · rcases List.mem_append.mp hw with hw | hw
    · simp only [List.mem_cons, List.not_mem_nil, or_false] at hw
      rcases hw with rfl | rfl | rfl | rfl
      · exact cut_inside _ _
      · exact inside_mk (by rw [sizeofBuffer] at *; omega)
      · exact inside_mk (by rw [sizeofBuffer] at *; omega)
      · refine inside_mk ?_
        split
        · rw [List.length_take, sizeofName]
          omega
        · rw [List.length_take, sizeofName]
          omega
    · refine basenameWrites_inside ?_ w hw
      have hshort := first_short P
      rw [sizeofBuffer]
      omega
  · split at hw
    next hcalled =>
      obtain ⟨-, hb, hsome, -⟩ := hcalled
      rw [script_read hn (hscript hb) junk] at hsome hw
      refine basenameWrites_inside ?_ w hw
      have hfits := second_fits hsome
      rw [sizeofBuffer]
      omega
    next => cases hw

end Writes

section Chain

variable {proc : Int → Option Process} {junk : Int → Bool → Str} {basepid pid : Int}
    {chain : List (Int × Process)}
  {st st' : State} {fuel : Nat} {l s : Str} {names : List Str}

theorem Ancestors.processes (h : Ancestors proc basepid pid chain)
    (hpid : ∃ n : Nat, pid = n ∧ n ≤ 2147483647) :
    ∀ x ∈ chain, ∃ n : Nat, x.1 = n ∧ n ≤ 2147483647 ∧ proc n = some x.2 := by
  induction h with
  | stop => exact fun x hx => absurd hx List.not_mem_nil
  | @step pid P chain _ hproc _ ih =>
    intro x hx
    rcases List.mem_cons.mp hx with rfl | hx
    · obtain ⟨n, rfl, hn⟩ := hpid
      exact ⟨n, rfl, hn, hproc⟩
    · exact ih ⟨P.ppid, rfl, P.ppid_int⟩ x hx

/-- With the right parents all of the chain is visited, the oldest process first. -/
theorem addptree_iff (h : Ancestors proc basepid pid chain)
    (hparents : ∀ x ∈ chain, (pid2ppid proc x.1).1 = x.2.ppid) :
    addptree proc junk basepid fuel pid st = some st' ↔
      chain.length < fuel ∧ st' = chain.foldr (fun x st => addName proc junk x.1 st) st := by
  induction h generalizing fuel st' with
  | stop hstop =>
    cases fuel with
    | zero => exact iff_of_false (fun h => by cases h) fun h => absurd h.1 (Nat.not_lt_zero _)
    | succ fuel =>
      rw [addptree, if_pos hstop, Option.some_inj]
      exact ⟨fun heq => ⟨Nat.succ_pos _, heq.symm⟩, fun h => h.2.symm⟩
  | @step pid P chain hgo _ _ ih =>
    cases fuel with
    | zero => exact iff_of_false (fun h => by cases h) fun h => absurd h.1 (Nat.not_lt_zero _)
    | succ fuel =>
      have hparent : (pid2ppid proc pid).1 = P.ppid := hparents _ List.mem_cons_self
      have hrest := fun st' => @ih st' fuel fun x hx => hparents x (List.mem_cons_of_mem _ hx)
      rw [addptree, if_neg hgo, hparent, Option.map_eq_some_iff, List.foldr_cons, List.length_cons]
      constructor
      · rintro ⟨st'', hst, rfl⟩
        obtain ⟨hlt, rfl⟩ := (hrest st'').mp hst
        exact ⟨Nat.succ_lt_succ hlt, rfl⟩
      · rintro ⟨hlt, rfl⟩
        exact ⟨_, (hrest _).mpr ⟨Nat.lt_of_succ_lt_succ hlt, rfl⟩, rfl⟩

/-- A name is listed. -/
def named (st : State) (n : Str) : State :=
  if st.l ≠ n then ⟨print sizeofCmdtxt st.cmdtxt ((if st.cmdtxt.pos ≠ 0 then ['.'] else []) ++ n), n⟩
  else ⟨print sizeofCmdtxt st.cmdtxt ['*'], n⟩

theorem addName_eq {x : Int × Process} (h : ∀ second, (getpname proc (junk x.1 second) x.1).1 = x.2.name)
    (st : State) :
    addName proc junk x.1 st = named st x.2.name := by
  rw [addName, named]
  simp only [h]

theorem foldr_names (hnames : ∀ x ∈ chain, ∀ second, (getpname proc (junk x.1 second) x.1).1 = x.2.name)
    (st : State) :
    chain.foldr (fun x st => addName proc junk x.1 st) st =
    (chain.reverse.map fun x => x.2.name).foldl named st := by
  rw [List.foldl_map, List.foldl_reverse]
  induction chain with
  | nil => rfl
  | cons x chain ih =>
    rw [List.foldr_cons, List.foldr_cons, ih fun y hy => hnames y (List.mem_cons_of_mem x hy)]
    exact addName_eq (hnames x List.mem_cons_self) _

/-- What is listed behind some text. -/
theorem foldl_behind (hl : st.l = l) (hs : s ≠ []) (hpos : st.cmdtxt.pos = s.length)
    (hholds : Holds st.cmdtxt.mem s)
    (hinside : st.cmdtxt.Inside sizeofCmdtxt) (hshort : s.length + (behind l names).length < sizeofCmdtxt) :
    (names.foldl named st).cmdtxt.Inside sizeofCmdtxt ∧
      Holds (names.foldl named st).cmdtxt.mem (s ++ behind l names) := by
  induction names generalizing st l s with
  | nil =>
    rw [behind, List.append_nil]
    exact ⟨hinside, hholds⟩
  | cons n names ih =>
    have htext : named st n = ⟨print sizeofCmdtxt st.cmdtxt (if n = l then ['*'] else '.' :: n), n⟩ := by
      have hnonzero : st.cmdtxt.pos ≠ 0 := by
        rw [hpos]
        exact fun h => hs (List.length_eq_zero_iff.mp (Int.natCast_eq_zero.mp h))
      rw [named, hl, if_pos hnonzero]
      by_cases heq : n = l
      · rw [if_pos heq, if_neg (not_not.mpr heq.symm)]
      · rw [if_neg heq, if_pos (Ne.symm heq)]
        rfl
    rw [behind, List.length_append] at hshort
    obtain ⟨hpos', hholds', hwrites⟩ :=
      @print_fits s (if n = l then ['*'] else '.' :: n) sizeofCmdtxt st.cmdtxt
      hpos (by decide) (by omega) hholds.1
    rw [List.foldl_cons, htext, behind, ← List.append_assoc]
    refine ih rfl (List.append_ne_nil_of_left_ne_nil hs _) hpos' hholds' (fun w hw k hk => ?_) ?_
    · dsimp only at hw
      rw [hwrites] at hw
      rcases List.mem_append.mp hw with hw | hw
      · exact hinside w hw k hk
      · rw [List.mem_singleton.mp hw] at hk ⊢
        dsimp only at hk ⊢
        omega
    · rw [List.length_append]
      omega

/-- A list that is shorter than the buffer is written as it should be. -/
theorem foldl_listing (hne : ∀ n ∈ names, n ≠ []) (hshort : (listing names).length < sizeofCmdtxt) :
    (names.foldl named start).cmdtxt.Inside sizeofCmdtxt ∧
    Holds (names.foldl named start).cmdtxt.mem (listing names) := by
  cases names with
  | nil => exact ⟨fun w hw => absurd hw List.not_mem_nil, fun k hk => absurd hk (Nat.not_lt_zero k), rfl⟩
  | cons n names =>
    have hn : n ≠ [] := hne n List.mem_cons_self
    have hfirst : named start n = ⟨print sizeofCmdtxt start.cmdtxt n, n⟩ := by
      rw [named, if_pos (show start.l ≠ n from Ne.symm hn)]
      rfl
    rw [listing, List.length_append] at hshort
    have hstart : start.cmdtxt.pos = (([] : Str).length : Nat) := rfl
    obtain ⟨hpos, hholds, hwrites⟩ := @print_fits [] n sizeofCmdtxt start.cmdtxt hstart (by decide)
      (by rw [List.length_nil]; omega) (fun k hk => absurd hk (Nat.not_lt_zero k))
    rw [List.foldl_cons, hfirst, listing]
    refine foldl_behind rfl hn hpos hholds (fun w hw k hk => ?_) hshort
    dsimp only at hw
    rw [hwrites] at hw
    rw [List.mem_singleton.mp hw] at hk ⊢
    dsimp only [List.length_nil] at hk ⊢
    omega

theorem exists_texts (names : List Str) (st : State) :
    ∃ texts, (names.foldl named st).cmdtxt = printAll sizeofCmdtxt st.cmdtxt texts := by
  induction names generalizing st with
  | nil => exact ⟨[], rfl⟩
  | cons n names ih =>
    obtain ⟨texts, htexts⟩ := ih (named st n)
    have hprint : ∃ text, (named st n).cmdtxt = print sizeofCmdtxt st.cmdtxt text := by
      rw [named]
      split
      · exact ⟨_, rfl⟩
      · exact ⟨_, rfl⟩
    obtain ⟨text, htext⟩ := hprint
    exact ⟨text :: texts, by rw [List.foldl_cons, htexts, htext, printAll_cons]⟩

theorem nul_behind (h : ∀ n ∈ names, nul ∉ n) (l : Str) : nul ∉ behind l names := by
  induction names generalizing l with
  | nil => exact List.not_mem_nil
  | cons n names ih =>
    rw [behind, List.mem_append, not_or]
    refine ⟨?_, ih (fun m hm => h m (List.mem_cons_of_mem n hm)) n⟩
    split
    · decide
    · exact fun hmem => (List.mem_cons.mp hmem).elim (by decide) (h n List.mem_cons_self)

theorem nul_listing (h : ∀ n ∈ names, nul ∉ n) : nul ∉ listing names := by
  cases names with
  | nil => exact List.not_mem_nil
  | cons n names =>
    rw [listing, List.mem_append, not_or]
    exact ⟨h n List.mem_cons_self, nul_behind (fun m hm => h m (List.mem_cons_of_mem n hm)) n⟩

/-- A list that is written within the buffer is shorter. -/
theorem listing_short (hfree : ∀ n ∈ names, nul ∉ n)
    (hinside : (names.foldl named start).cmdtxt.Inside sizeofCmdtxt)
    (hholds : Holds (names.foldl named start).cmdtxt.mem (listing names)) :
    (listing names).length < sizeofCmdtxt := by
  obtain ⟨texts, htexts⟩ := exists_texts names start
  rw [htexts] at hinside hholds
  have hended : Ended sizeofCmdtxt start.cmdtxt := ⟨0, by decide, rfl⟩
  exact hholds.length_lt (nul_listing hfree) (hinside.printAll_ended hended)

end Chain

section Families

variable {f : Family}

theorem Family.processes (f : Family) : ∀ x ∈ f.chain, ∃ n :
    Nat, x.1 = n ∧ n ≤ 2147483647 ∧ f.proc n = some x.2 :=
  f.ancestors.processes ⟨f.pid, rfl, f.pid_int⟩

theorem Family.names_free (f : Family) : ∀ n ∈ f.names, n ≠ [] ∧ nul ∉ n := by
  intro n hn
  obtain ⟨x, -, rfl⟩ := List.mem_map.mp hn
  exact ⟨name_ne x.2, nul_name x.2⟩

/-- With the right parents and the right names the text is written as it should be exactly if it is
shorter than the buffer. -/
theorem text_iff {junk : Int → Bool → Str} (hparents : ∀ x ∈ f.chain, (pid2ppid f.proc x.1).1 = x.2.ppid)
    (hnames : ∀ x ∈ f.chain, ∀ second, (getpname f.proc (junk x.1 second) x.1).1 = x.2.name) :
    (∃ fuel st, addptree f.proc junk f.basepid fuel f.pid start = some st ∧
      st.cmdtxt.Inside sizeofCmdtxt ∧ Holds st.cmdtxt.mem (listing f.names)) ↔
        (listing f.names).length < sizeofCmdtxt := by
  constructor
  · rintro ⟨fuel, st, hrun, hinside, hholds⟩
    obtain ⟨-, rfl⟩ := (addptree_iff f.ancestors hparents).mp hrun
    rw [foldr_names hnames] at hinside hholds
    exact listing_short (fun n hn => (f.names_free n hn).2) hinside hholds
  · intro hshort
    refine ⟨f.chain.length + 1, _, (addptree_iff f.ancestors hparents).mpr ⟨Nat.lt_succ_self _, rfl⟩, ?_⟩
    rw [foldr_names hnames]
    exact foldl_listing (fun n hn => (f.names_free n hn).1) hshort

/-- Exactly these chains are listed as they should be, whatever the stack has. -/
theorem chain_listed_iff (f : Family) : (∀ junk, Listed f junk) ↔ Fits f := by
  constructor
  · intro h
    have hlisted := h fun _ _ => letters
    have hread : ∀ x ∈ f.chain, x.2.cmdline ≠ [] ∧ (FlWrapper.basename x.2.first ∈ interpreters →
        nul ∈ x.2.seen ∨ x.2.cmdline.length = (cmdlinePath x.1).length) := by
      intro x hx
      obtain ⟨n, hx1, hn, hproc⟩ := f.processes x hx
      have hname := hlisted.names x hx true
      rw [hx1] at hname ⊢
      exact getpname_bad hn hproc hname
    refine ⟨fun x hx hblank => ?_, fun x hx => (hread x hx).1, fun x hx => (hread x hx).2,
      (@text_iff f (fun _ _ => letters) hlisted.parents hlisted.names).mp hlisted.text⟩
    obtain ⟨n, hx1, hn, hproc⟩ := f.processes x hx
    have hparent := hlisted.parents x hx
    rw [hx1, pid2ppid_eq hn hproc, if_pos hblank] at hparent
    exact hparent
  · intro h junk
    have hparents : ∀ x ∈ f.chain, (pid2ppid f.proc x.1).1 = x.2.ppid := by
      intro x hx
      obtain ⟨n, hx1, hn, hproc⟩ := f.processes x hx
      rw [hx1, pid2ppid_eq hn hproc]
      split
      next hblank => exact h.blank x hx hblank
      next => rfl
    have hnames : ∀ x ∈ f.chain, ∀ second, (getpname f.proc (junk x.1 second) x.1).1 = x.2.name := by
      intro x hx second
      obtain ⟨n, hx1, hn, hproc⟩ := f.processes x hx
      have hscript := h.script x hx
      rw [hx1] at hscript ⊢
      exact getpname_ok hn hproc (h.cmdline x hx) hscript _
    refine ⟨hparents, hnames, fun x hx second w hw => ?_, (text_iff hparents hnames).mpr h.short⟩
    rcases List.mem_append.mp hw with hw | hw
    · exact pid2ppid_inside _ _ w hw
    · obtain ⟨n, hx1, hn, hproc⟩ := f.processes x hx
      have hscript := h.script x hx
      rw [hx1] at hscript hw
      exact getpname_inside hn hproc (h.cmdline x hx) hscript _ w hw

/-- A process with a blank in its name. -/
def tmux : Process where
  comm := "tmux: server".toList
  state := 'S'
  ppid := 1
  rest := [' ', '1']
  cmdline := ['t', 'm', 'u', 'x', nul]
  comm_short := by decide
  comm_free := by decide
  letter := by decide
  ppid_int := by decide
  more := ⟨['1'], rfl⟩
  rest_free := by decide

def init : Process where
  comm := "init".toList
  state := 'S'
  ppid := 0
  rest := [' ', '1']
  cmdline := ['i', 'n', 'i', 't', nul]
  comm_short := by decide
  comm_free := by decide
  letter := by decide
  ppid_int := by decide
  more := ⟨['1'], rfl⟩
  rest_free := by decide

def tmuxProc (pid : Int) : Option Process := if pid = 100 then some tmux else if pid = 1 then some init
    else none

def tmuxFamily : Family where
  proc := tmuxProc
  basepid_txt := none
  pid := 100
  pid_int := by decide
  chain := [(100, tmux), (1, init)]
  ancestors := .step (by decide) rfl (.step (by decide) rfl (.stop (.inl rfl)))

/-- Its parent is not found. -/
theorem name_split : ¬∀ (f : Family) (junk : Int → Bool → Str), Listed f junk := by
  intro h
  have hparent := (h tmuxFamily fun _ _ => []).parents (100, tmux) List.mem_cons_self
  have hproc : tmuxProc (100 : Nat) = some tmux := rfl
  have hread : (pid2ppid tmuxProc (100 : Nat)).1 = 0 := by
    rw [pid2ppid_eq (by decide) hproc, if_pos (by decide +kernel)]
    decide +kernel
  exact absurd (hread.symm.trans hparent) (by decide)

end Families

section Log

variable {names : List Str} {st : Str × Str}

theorem foldl_addName (hne : st.1 ≠ []) (hshort : st.1.length + (behind st.2 names).length < sizeofCmdtxt) :
    (names.foldl FlWrapper.addName st).1 = st.1 ++ behind st.2 names := by
  induction names generalizing st with
  | nil => exact (List.append_nil _).symm
  | cons n names ih =>
    rw [behind, List.length_append] at hshort
    have hstep : FlWrapper.addName st n = (st.1 ++ (if n = st.2 then ['*'] else '.' :: n), n) := by
      have htake : ∀ text : Str, text.length < sizeofCmdtxt → text.take 4095 = text := fun text htext =>
        List.take_of_length_le (by rw [sizeofCmdtxt] at htext; omega)
      have hlength :=
        htake (st.1 ++ (if n = st.2 then ['*'] else '.' :: n)) (by rw [List.length_append]; omega)
      rw [FlWrapper.addName, if_neg hne]
      by_cases heq : n = st.2
      · rw [if_pos heq] at hlength
        rw [if_neg (not_not.mpr heq), if_pos heq, hlength]
      · rw [if_neg heq] at hlength
        rw [if_pos heq, if_neg heq, List.singleton_append, hlength]
    rw [List.foldl_cons, hstep, behind, ← List.append_assoc]
    refine ih (List.append_ne_nil_of_left_ne_nil hne _) ?_
    rw [List.length_append]
    dsimp only
    omega

/-- What the log entries begin with. -/
theorem addptree_listing (hne : ∀ n ∈ names, n ≠ []) (hshort : (listing names).length < sizeofCmdtxt) :
    FlWrapper.addptree names = listing names := by
  cases names with
  | nil => rfl
  | cons n names =>
    have hn : n ≠ [] := hne n List.mem_cons_self
    rw [listing, List.length_append] at hshort
    have hfirst : FlWrapper.addName ([], []) n = (n, n) := by
      have htake : n.take 4095 = n := List.take_of_length_le (by rw [sizeofCmdtxt] at hshort; omega)
      rw [FlWrapper.addName, if_pos hn, if_pos rfl, List.nil_append, List.nil_append, htake]
    rw [FlWrapper.addptree, List.foldl_cons, hfirst, listing]
    exact foldl_addName hn hshort

end Log

end T2SDE.ProcessChain
