import Mathlib.Data.List.Chain
import T2SDE.FlRealpath

namespace T2SDE.FlWrapper

open Text

def basename (path : Str) : Str :=
  let stripped := path.rdropWhile (· == '/')
  if path = [] then ['.']
  else if stripped = [] then ['/']
  else stripped.rtakeWhile (· != '/')

def interpreters : List Str := ["bash".toList, "sh".toList, "perl".toList]

/-- What `getpname` returns: the name of a program, or an interpreter with the name of its script. -/
inductive ProcName : Str → Prop
  | unknown : ProcName "unkown".toList
  | program (buffer : Str) : ProcName ((basename buffer).take 511)
  | script {b : Str} (hb : b ∈ interpreters) (arg : Str) :
      ProcName ((b ++ '(' :: basename arg ++ [')']).take 511)

/-- A name put behind the command text; an immediate repetition is a star. -/
def addName (st : Str × Str) (p : Str) : Str × Str :=
  (if p ≠ st.2 then (st.1 ++ ((if st.1 = [] then [] else ['.']) ++ p)).take 4095
    else (st.1 ++ ['*']).take 4095, p)

/-- `addptree` over the processes from the oldest one below the base to the current one. -/
def addptree (names : List Str) : Str := (names.foldl addName ([], [])).1

def wrappedFunctions : List Str := prototypes.map fun line => (addWrapper line).function

/-- An access that is written to a log: the process chain, the wrapper and the file. -/
structure Access where
  names : List Str
  procs : ∀ p ∈ names, ProcName p
  func : Str
  wrapped : func ∈ wrappedFunctions
  file : Str
  absolute : file.head? = some '/'
  noNewline : '\n' ∉ file
  short : file.length < pathMax

def Access.cmdname (a : Access) : Str := addptree a.names

def Access.path (a : Access) : Str := sortOfRealpath a.file

def Access.header (a : Access) : Str := a.cmdname ++ '.' :: a.func ++ [':', '\t']

/-- The `snprintf` and the `write` of `handle_file_access_after`. -/
def Access.record (a : Access) : Str := (a.header ++ a.path ++ ['\n']).take (pathMax - 1)

def filenameMax : Nat := 4096

/-- `fgets` with room for so many characters: the line and what is left. -/
def fgets : Nat → Str → Str × Str
  | 0, s => ([], s)
  | _, [] => ([], [])
  | n + 1, c :: s => if c = '\n' then ([c], s) else (c :: (fgets n s).1, (fgets n s).2)

def blank (c : Char) : Bool := c == '\t' || c == ' '

/-- The field behind the first blank of a line, if there is a blank and anything behind it. -/
def stripInfo (buf : Str) : List Str :=
  match buf.dropWhile (fun c => !blank c) with
  | [] => []
  | _ :: fn => if fn.takeWhile (· != '\n') = [] then [] else [fn.takeWhile (· != '\n')]

def wrparseLoop : Nat → Str → List Str
  | 0, _ => []
  | fuel + 1, s =>
    if s = [] then []
    else stripInfo (fgets (filenameMax - 1) s).1 ++ wrparseLoop fuel (fgets (filenameMax - 1) s).2

attribute [grind =] fgets stripInfo wrparseLoop

/-- The fields that `fl_wrparse -s` takes from a log. -/
def wrparse (log : Str) : List Str := wrparseLoop log.length log

section Lines

variable {n : Nat} {s line rest : Str}

theorem fgets_append (n : Nat) (s : Str) : (fgets n s).1 ++ (fgets n s).2 = s := by
  induction n generalizing s with
  | zero => rfl
  | succ n ih =>
    cases s with
    | nil => rfl
    | cons c s =>
      rw [fgets]
      split_ifs
      · rfl
      · simp [ih]

theorem fgets_rest_length (hn : 0 < n) (hs : s ≠ []) : (fgets n s).2.length < s.length := by
  obtain ⟨n, rfl⟩ := Nat.exists_eq_add_of_le' hn
  cases s with
  | nil => exact absurd rfl hs
  | cons c s =>
    have happend := congrArg List.length (fgets_append n s)
    simp only [List.length_append] at happend
    rw [fgets]
    split_ifs
    · simp
    · simp only [List.length_cons]
      omega

theorem fgets_line (hline : '\n' ∉ line) (hroom : line.length < n) :
    fgets n (line ++ '\n' :: rest) = (line ++ ['\n'], rest) := by
  induction line generalizing n with
  | nil =>
    obtain ⟨n, rfl⟩ := Nat.exists_eq_add_of_le' hroom
    rfl
  | cons c line ih =>
    obtain ⟨n, rfl⟩ := Nat.exists_eq_add_of_le' (Nat.one_le_of_lt hroom)
    have hc : c ≠ '\n' := fun h => hline (by simp [h])
    simp only [List.length_cons] at hroom
    simp [fgets, hc, ih (fun h => hline (by simp [h])) (by omega : line.length < n)]

/-- A line that fills the buffer is read without its end. -/
theorem fgets_full (hline : '\n' ∉ line) (hroom : line.length = n) :
    fgets n (line ++ rest) = (line, rest) := by
  induction line generalizing n with
  | nil =>
    subst hroom
    rfl
  | cons c line ih =>
    subst hroom
    have hc : c ≠ '\n' := fun h => hline (by simp [h])
    simp [fgets, hc, ih (fun h => hline (by simp [h])) rfl]

theorem fgets_last (hline : '\n' ∉ line) (hroom : line.length ≤ n) : fgets n line = (line, []) := by
  induction line generalizing n with
  | nil => cases n <;> rfl
  | cons c line ih =>
    obtain ⟨n, rfl⟩ := Nat.exists_eq_add_of_le' (Nat.le_trans (Nat.le_add_left 1 line.length) hroom)
    have hc : c ≠ '\n' := fun h => hline (by simp [h])
    simp only [List.length_cons] at hroom
    simp [fgets, hc, ih (fun h => hline (by simp [h])) (by omega : line.length ≤ n)]

theorem wrparseLoop_fuel {n m : Nat} (hn : s.length ≤ n) (hm : s.length ≤ m) :
    wrparseLoop n s = wrparseLoop m s := by
  induction n generalizing s m with
  | zero =>
    obtain rfl := List.length_eq_zero_iff.mp (Nat.le_zero.mp hn)
    cases m <;> rfl
  | succ n ih =>
    by_cases hs : s = []
    · subst hs
      cases m <;> rfl
    · obtain ⟨m, rfl⟩ : ∃ k, m = k + 1 :=
        Nat.exists_eq_add_of_le' (Nat.one_le_of_lt (Nat.lt_of_lt_of_le (List.length_pos_of_ne_nil hs) hm))
      have hlt := fgets_rest_length (n := filenameMax - 1) (by decide) hs
      have hrest : wrparseLoop n (fgets (filenameMax - 1) s).2 =
          wrparseLoop m (fgets (filenameMax - 1) s).2 := ih (by omega) (by omega)
      simp [wrparseLoop, hs, hrest]

@[simp] theorem wrparse_nil : wrparse [] = [] := rfl

theorem wrparse_cons (hs : s ≠ []) : wrparse s =
    stripInfo (fgets (filenameMax - 1) s).1 ++ wrparse (fgets (filenameMax - 1) s).2 := by
  obtain ⟨c, t, rfl⟩ := List.exists_cons_of_ne_nil hs
  have hlt := fgets_rest_length (n := filenameMax - 1) (by decide) hs
  rw [wrparse, List.length_cons, wrparseLoop, if_neg hs, wrparse]
  simp only [List.length_cons] at hlt
  exact congrArg _ (wrparseLoop_fuel (by omega) (Nat.le_refl _))

end Lines

section Fields

variable {line rest s F a t nl : Str} {b : Char}

theorem stripInfo_quiet (h : ∀ c ∈ s, blank c = false) : stripInfo s = [] := by
  have hdrop : s.dropWhile (fun c => !blank c) = [] := by
    rw [List.dropWhile_eq_nil_iff]
    simpa using h
  rw [stripInfo, hdrop]

theorem stripInfo_field (ha : ∀ c ∈ a, blank c = false) (hb : blank b = true) :
    stripInfo (a ++ b :: t) = if t.takeWhile (· != '\n') = [] then [] else [t.takeWhile (· != '\n')] := by
  have hdrop : (a ++ b :: t).dropWhile (fun c => !blank c) = b :: t := by
    rw [List.dropWhile_append_of_pos (by simpa using ha), List.dropWhile_cons_of_neg (by simp [hb])]
  rw [stripInfo, hdrop]

theorem takeWhile_line (hF : '\n' ∉ F) (hnl : nl = [] ∨ nl = ['\n']) :
    (F ++ nl).takeWhile (· != '\n') = F := by
  rw [List.takeWhile_append_of_pos (fun c hc => by simpa using fun h : c = '\n' => hF (h ▸ hc))]
  rcases hnl with rfl | rfl <;> simp

theorem mem_stripInfo (h : F ∈ stripInfo s) :
    F ≠ [] ∧ ∃ pre b more, blank b = true ∧ s = pre ++ b :: (F ++ more) := by
  obtain ⟨a, r, rfl, ha, hr⟩ := exists_run (fun c => !blank c) s
  cases r with
  | nil =>
    rw [stripInfo_quiet (by simpa using ha)] at h
    cases h
  | cons b t =>
    have hb : blank b = true := by simpa using hr b t rfl
    rw [stripInfo_field (by simpa using ha) hb] at h
    split_ifs at h with hempty
    · simp at h
    · obtain rfl := List.mem_singleton.mp h
      exact ⟨hempty, a, b, t.dropWhile (· != '\n'), hb, by rw [List.takeWhile_append_dropWhile]⟩

/-- Every field of a log stands behind a blank. -/
theorem mem_wrparse (h : F ∈ wrparse s) :
    F ≠ [] ∧ ∃ pre b more, blank b = true ∧ s = pre ++ b :: (F ++ more) := by
  induction hn : s.length using Nat.strongRecOn generalizing s with
  | _ n ih =>
    by_cases hs : s = []
    · simp [hs] at h
    have happend := fgets_append (filenameMax - 1) s
    rw [wrparse_cons hs] at h
    rcases List.mem_append.mp h with h | h
    · obtain ⟨hF, pre, b, more, hb, hline⟩ := mem_stripInfo h
      refine ⟨hF, pre, b, more ++ (fgets (filenameMax - 1) s).2, hb, ?_⟩
      rw [hline] at happend
      simpa using happend.symm
    · obtain ⟨hF, pre, b, more, hb, hrest⟩ :=
        ih _ (hn ▸ fgets_rest_length (by decide) hs) h rfl
      refine ⟨hF, (fgets (filenameMax - 1) s).1 ++ pre, b, more, hb, ?_⟩
      rw [List.append_assoc, ← hrest, happend]

theorem wrparse_line (hline : '\n' ∉ line) (hroom : line.length + 1 < filenameMax) :
    wrparse (line ++ '\n' :: rest) = stripInfo (line ++ ['\n']) ++ wrparse rest := by
  rw [wrparse_cons (by simp), fgets_line hline (Nat.lt_sub_of_add_lt hroom)]

end Fields

section Records

/-- A command name that leaves no field: no line of it has a blank, but for one at the end of a line
that is not the last. -/
inductive QuietName : Str → Prop
  | last {w : Str} (hend : '\n' ∉ w) (h : ∀ c ∈ w, blank c = false) : QuietName w
  | line {w rest : Str} (hend : '\n' ∉ w) (h : ∀ c ∈ w.dropLast, blank c = false)
      (hrest : QuietName rest) : QuietName (w ++ '\n' :: rest)

variable {name line w mid F rest nl : Str} {b : Char}

theorem stripInfo_line_iff (hend : '\n' ∉ w) :
    stripInfo (w ++ ['\n']) = [] ↔ ∀ c ∈ w.dropLast, blank c = false := by
  obtain ⟨a, r, rfl, ha, hr⟩ := exists_run (fun c => !blank c) w
  have ha' : ∀ c ∈ a, blank c = false := by simpa using ha
  cases r with
  | nil =>
    have hquiet : ∀ c ∈ a ++ [] ++ ['\n'], blank c = false := by
      intro c hc
      rcases List.mem_append.mp hc with hc | hc
      · exact ha' c (by simpa using hc)
      · rw [List.mem_singleton.mp hc]
        rfl
    refine iff_of_true (stripInfo_quiet hquiet) fun c hc => ?_
    exact ha' c (List.dropLast_subset a (by simpa using hc))
  | cons b t =>
    have hb : blank b = true := by simpa using hr b t rfl
    have ht : '\n' ∉ t := fun h => hend (by simp [h])
    rw [List.append_assoc, List.cons_append, stripInfo_field ha' hb, takeWhile_line ht (.inr rfl)]
    cases t with
    | nil => simpa using ha'
    | cons c t =>
      rw [List.dropLast_append_of_ne_nil (List.cons_ne_nil _ _), List.dropLast_cons_of_ne_nil (by simp)]
      refine iff_of_false (by simp) fun h => ?_
      simp [h b (by simp)] at hb

theorem wrparse_single (hline : '\n' ∉ line) (hne : line ≠ []) (hnl : nl = [] ∨ nl = ['\n'])
    (hroom : (line ++ nl).length < filenameMax) : wrparse (line ++ nl) = stripInfo (line ++ nl) := by
  rcases hnl with rfl | rfl
  · have hread := fgets_last (n := filenameMax - 1) hline (Nat.le_sub_one_of_lt (by simpa using hroom))
    rw [List.append_nil, wrparse_cons hne, hread, wrparse_nil, List.append_nil]
  · rw [wrparse_line hline (by simpa using hroom), wrparse_nil, List.append_nil]

/-- What a record gives: the fields of its first lines, and one that ends with the path. -/
theorem wrparse_tail (hmid : ∀ c ∈ mid, blank c = false ∧ c ≠ '\n') (hb : blank b = true)
    (hF : F ≠ []) (hFend : '\n' ∉ F) (hnl : nl = [] ∨ nl = ['\n'])
    (hroom : (name ++ (mid ++ b :: (F ++ nl))).length < filenameMax) :
    ∃ front t, wrparse (name ++ (mid ++ b :: (F ++ nl))) = front ++ [t ++ F] ∧
      (front = [] → t = [] → QuietName name) := by
  induction hn : name.length using Nat.strongRecOn generalizing name with
  | _ n ih =>
    have hbend : b ≠ '\n' := by
      rintro rfl
      cases hb
    obtain ⟨w, r, rfl, hw, hr⟩ := exists_run (· != '\n') name
    have hend : '\n' ∉ w := fun h => by simpa using hw _ h
    cases r with
    | nil =>
      rw [List.append_nil] at hroom ⊢
      have hline : '\n' ∉ w ++ (mid ++ b :: F) := by
        simp only [List.mem_append, List.mem_cons, not_or]
        exact ⟨hend, fun h => (hmid _ h).2 rfl, hbend.symm, hFend⟩
      have hassoc : w ++ (mid ++ b :: (F ++ nl)) = w ++ (mid ++ b :: F) ++ nl := by simp
      rw [hassoc] at hroom ⊢
      rw [wrparse_single hline (by simp) hnl hroom]
      obtain ⟨a, r, rfl, ha, hr⟩ := exists_run (fun c => !blank c) w
      have ha' : ∀ c ∈ a, blank c = false := by simpa using ha
      cases r with
      | nil =>
        refine ⟨[], [], ?_, fun _ _ => .last hend (by simpa using ha')⟩
        have hfront : ∀ c ∈ a ++ mid, blank c = false := by
          intro c hc
          rcases List.mem_append.mp hc with hc | hc
          · exact ha' c hc
          · exact (hmid c hc).1
        have hsplit : a ++ [] ++ (mid ++ b :: F) ++ nl = (a ++ mid) ++ b :: (F ++ nl) := by simp
        rw [hsplit, stripInfo_field hfront hb, takeWhile_line hFend hnl, if_neg hF]
        rfl
      | cons d t =>
        have hd : blank d = true := by simpa using hr d t rfl
        refine ⟨[], t ++ (mid ++ [b]), ?_, by simp⟩
        have hrest : '\n' ∉ t ++ (mid ++ b :: F) := by
          simp only [List.append_assoc, List.cons_append, List.mem_append, List.mem_cons, not_or] at hline
          simp only [List.mem_append, List.mem_cons, not_or]
          exact hline.2.2
        have hsplit : a ++ d :: t ++ (mid ++ b :: F) ++ nl = a ++ d :: (t ++ (mid ++ b :: F) ++ nl) := by
          simp
        rw [hsplit, stripInfo_field ha' hd, takeWhile_line hrest hnl, if_neg (by simp)]
        simp
    | cons c rest =>
      obtain rfl : c = '\n' := by simpa using hr c rest rfl
      simp only [List.length_append, List.length_cons] at hroom hn
      obtain ⟨front, t, hrest, hquiet⟩ := ih rest.length (by omega)
        (by simp only [List.length_append, List.length_cons]; omega) rfl
      refine ⟨stripInfo (w ++ ['\n']) ++ front, t, ?_, fun hfront ht => ?_⟩
      · rw [List.append_assoc, List.cons_append, wrparse_line hend (by omega), hrest, List.append_assoc]
      · rw [List.append_eq_nil_iff] at hfront
        exact .line hend ((stripInfo_line_iff hend).mp hfront.1) (hquiet hfront.2 ht)

theorem QuietName.plain (h : QuietName name) (hend : '\n' ∉ name) : ∀ c ∈ name, blank c = false := by
  cases h with
  | last _ h => exact h
  | line _ _ _ => simp at hend

/-- A quiet name gives no field of its own, whatever the log goes on with. -/
theorem wrparse_quiet (rest : Str) (hname : QuietName name) (hmid : ∀ c ∈ mid, blank c = false ∧ c ≠ '\n')
    (hb : blank b = true) (hF : F ≠ []) (hFend : '\n' ∉ F)
    (hroom : (name ++ (mid ++ b :: F)).length + 1 < filenameMax) :
    wrparse (name ++ (mid ++ b :: (F ++ '\n' :: rest))) = F :: wrparse rest := by
  induction hname with
  | @last w hend hquiet =>
    have hbend : b ≠ '\n' := by
      rintro rfl
      cases hb
    have hline : '\n' ∉ w ++ (mid ++ b :: F) := by
      simp only [List.mem_append, List.mem_cons, not_or]
      exact ⟨hend, fun h => (hmid _ h).2 rfl, hbend.symm, hFend⟩
    have hfront : ∀ c ∈ w ++ mid, blank c = false := by
      intro c hc
      rcases List.mem_append.mp hc with hc | hc
      · exact hquiet c hc
      · exact (hmid c hc).1
    have hassoc : w ++ (mid ++ b :: (F ++ '\n' :: rest)) = w ++ (mid ++ b :: F) ++ '\n' :: rest := by simp
    have hsplit : w ++ (mid ++ b :: F) ++ ['\n'] = (w ++ mid) ++ b :: (F ++ ['\n']) := by simp
    rw [hassoc, wrparse_line hline hroom, hsplit, stripInfo_field hfront hb,
      takeWhile_line hFend (.inr rfl), if_neg hF, List.singleton_append]
  | @line w name hend hquiet _ ih =>
    simp only [List.length_append, List.length_cons] at hroom ih
    rw [List.append_assoc, List.cons_append, wrparse_line hend (by omega),
      (stripInfo_line_iff hend).mpr hquiet, List.nil_append]
    exact ih (by omega)

end Records

section Accesses

variable {a : Access} {rest : Str}

/-- No slash stands behind a blank. -/
def NoBlankSlash (s : Str) : Prop := s.IsChain fun c d => blank c = true → d ≠ '/'

theorem noBlankSlash_of_not_mem {s : Str} (h : '/' ∉ s) : NoBlankSlash s := by
  induction s with
  | nil => exact .nil
  | cons c s ih =>
    simp only [List.mem_cons, not_or] at h
    refine List.isChain_cons.mpr ⟨fun d hd _ => ?_, ih h.2⟩
    rintro rfl
    exact h.2 (List.mem_of_mem_head? hd)

theorem noBlankSlash_join {s t : Str} {c : Char} (hs : NoBlankSlash s) (ht : NoBlankSlash t)
    (hc : blank c = false) (hslash : c ≠ '/') : NoBlankSlash (s ++ c :: t) := by
  refine hs.append (List.isChain_cons.mpr ⟨fun d _ hblank => ?_, ht⟩) fun d _ e he _ => ?_
  · simp [hc] at hblank
  · obtain rfl := Option.some.inj he
    exact hslash

theorem basename_slash (path : Str) : '/' ∉ basename path ∨ basename path = ['/'] := by
  rw [basename]
  split_ifs with hempty hslashes
  · exact .inl (by decide)
  · exact .inr rfl
  · refine .inl fun h => ?_
    simpa using List.mem_rtakeWhile_imp h

theorem basename_noBlankSlash (path : Str) : NoBlankSlash (basename path) := by
  rcases basename_slash path with h | h
  · exact noBlankSlash_of_not_mem h
  · rw [h]
    exact .singleton _

theorem ProcName.noBlankSlash {p : Str} (h : ProcName p) : NoBlankSlash p := by
  cases h with
  | unknown => exact noBlankSlash_of_not_mem (by decide)
  | program buffer => exact (basename_noBlankSlash buffer).take 511
  | @script b hb arg =>
    have hname : NoBlankSlash b := by
      refine noBlankSlash_of_not_mem ?_
      revert b
      decide
    have hopen := noBlankSlash_join hname (basename_noBlankSlash arg) (c := '(') (by decide) (by decide)
    exact (noBlankSlash_join hopen .nil (c := ')') (by decide) (by decide)).take 511

theorem addName_noBlankSlash {st : Str × Str} {p : Str} (hst : NoBlankSlash st.1) (hp : NoBlankSlash p) :
    NoBlankSlash (addName st p).1 := by
  rw [addName]
  split_ifs with hrepeat hfirst
  · rw [hfirst]
    exact List.IsChain.take hp 4095
  · exact (noBlankSlash_join hst hp (c := '.') (by decide) (by decide)).take 4095
  · exact (noBlankSlash_join hst .nil (c := '*') (by decide) (by decide)).take 4095

theorem addptree_noBlankSlash {names : List Str} (h : ∀ p ∈ names, ProcName p) :
    NoBlankSlash (addptree names) := by
  have hfold : ∀ st : Str × Str, NoBlankSlash st.1 → NoBlankSlash (names.foldl addName st).1 := by
    induction names with
    | nil => exact fun st hst => hst
    | cons p names ih =>
      intro st hst
      exact ih (fun q hq => h q (List.mem_cons_of_mem p hq)) _
        (addName_noBlankSlash hst (h p (by simp)).noBlankSlash)
  exact hfold ([], []) .nil

theorem wrapped_plain {func : Str} (h : func ∈ wrappedFunctions) :
    ∀ c ∈ func, blank c = false ∧ c ≠ '\n' ∧ c ≠ '/' := by
  have hall : generated.all (fun w => w.1.all fun c => !blank c && c != '\n' && c != '/') = true := by
    decide +kernel
  obtain ⟨line, hline, rfl⟩ := List.mem_map.mp h
  intro c hc
  have hchar := List.all_eq_true.mp (List.all_eq_true.mp hall _ (mem_generated hline)) c hc
  simpa [and_assoc] using hchar

/-- The part of a record between the command name and the path. -/
def Access.middle (a : Access) : Str := '.' :: a.func ++ [':']

theorem record_eq (a : Access) : a.header ++ a.path = a.cmdname ++ (a.middle ++ '\t' :: a.path) := by
  simp [Access.header, Access.middle]

theorem middle_plain (a : Access) : ∀ c ∈ a.middle, blank c = false ∧ c ≠ '\n' := by
  intro c hc
  simp only [Access.middle, List.cons_append, List.mem_cons, List.mem_append, List.not_mem_nil,
    or_false] at hc
  rcases hc with rfl | hc | rfl
  · decide
  · exact ⟨(wrapped_plain a.wrapped c hc).1, (wrapped_plain a.wrapped c hc).2.1⟩
  · decide

theorem path_head (a : Access) : a.path.head? = some '/' := head_sortOfRealpath a.absolute

theorem path_ne_nil (a : Access) : a.path ≠ [] := by
  intro h
  have := path_head a
  simp [h] at this

theorem path_noNewline (a : Access) : '\n' ∉ a.path := fun h => a.noNewline (mem_sortOfRealpath h)

/-- An access whose record is read back: its name is quiet and the record fits the buffers, where
only the end of a single line may be lost. -/
def Access.Legible (a : Access) : Prop :=
  QuietName a.cmdname ∧
    ((a.header ++ a.path).length + 1 < pathMax ∨
      ((a.header ++ a.path).length + 1 = pathMax ∧ '\n' ∉ a.cmdname))

theorem record_whole (h : (a.header ++ a.path).length + 1 < pathMax) :
    a.record = a.cmdname ++ (a.middle ++ '\t' :: (a.path ++ ['\n'])) := by
  have hlen : (a.header ++ a.path ++ ['\n']).length ≤ pathMax - 1 := by
    rw [List.length_append]
    exact Nat.le_sub_one_of_lt h
  rw [Access.record, List.take_of_length_le hlen, record_eq]
  simp

theorem record_cut (h : pathMax ≤ (a.header ++ a.path).length + 1) :
    a.record = (a.header ++ a.path).take (pathMax - 1) := by
  rw [Access.record, List.take_append_of_le_length (Nat.sub_le_of_le_add h)]

theorem record_noNewline (h : '\n' ∉ a.cmdname) : '\n' ∉ a.header ++ a.path := by
  rw [record_eq]
  simp only [List.mem_append, List.mem_cons, not_or]
  exact ⟨h, fun hc => (middle_plain a _ hc).2 rfl, by decide, path_noNewline a⟩

/-- A legible access is read as one field in front of whatever the log goes on with. -/
theorem wrparse_record (h : a.Legible) (rest : Str) :
    wrparse (a.record ++ rest) = a.path :: wrparse rest := by
  obtain ⟨hquiet, hroom | ⟨hfull, hend⟩⟩ := h
  · have hfields := wrparse_quiet rest hquiet (middle_plain a) (b := '\t') rfl (path_ne_nil a)
      (path_noNewline a) (by rw [← record_eq]; exact hroom)
    rw [record_whole hroom]
    simpa using hfields
  · -- the record fills the buffer of `fgets`, which stops behind the path
    have hfront : ∀ c ∈ a.cmdname ++ a.middle, blank c = false := by
      intro c hc
      rcases List.mem_append.mp hc with hc | hc
      · exact hquiet.plain hend c hc
      · exact (middle_plain a c hc).1
    have hlen : (a.header ++ a.path).length = pathMax - 1 := by
      rw [← hfull, Nat.add_sub_cancel]
    have hread : fgets (filenameMax - 1) (a.header ++ a.path ++ rest) = (a.header ++ a.path, rest) :=
      fgets_full (record_noNewline hend) hlen
    have hfield : stripInfo (a.header ++ a.path) = [a.path] := by
      have hline : a.path.takeWhile (· != '\n') = a.path := by
        simpa using takeWhile_line (path_noNewline a) (.inl rfl)
      rw [record_eq, ← List.append_assoc, stripInfo_field hfront rfl, hline, if_neg (path_ne_nil a)]
    rw [record_cut (Nat.le_of_eq hfull.symm), List.take_of_length_le (Nat.le_of_eq hlen),
      wrparse_cons (by simp [path_ne_nil]), hread, hfield, List.singleton_append]

theorem header_noBlankSlash (a : Access) : NoBlankSlash a.header := by
  have hfunc : '/' ∉ a.func ++ [':', '\t'] := by
    simp only [List.mem_append, not_or]
    exact ⟨fun h => (wrapped_plain a.wrapped _ h).2.2 rfl, by decide⟩
  have hjoin := noBlankSlash_join (addptree_noBlankSlash a.procs) (noBlankSlash_of_not_mem hfunc)
    (c := '.') (by decide) (by decide)
  simpa [Access.header, Access.cmdname] using hjoin

/-- A record that was cut has lost the end of its path, and no field of it is the whole path. -/
theorem path_not_mem_of_cut (h : pathMax < (a.header ++ a.path).length + 1) :
    a.path ∉ wrparse a.record := by
  intro hmem
  obtain ⟨_, pre, b, more, hb, hrecord⟩ := mem_wrparse hmem
  rw [record_cut (Nat.le_of_lt h)] at hrecord
  obtain ⟨path, hpath⟩ : ∃ path, a.path = '/' :: path := by
    have hhead := path_head a
    cases hp : a.path with
    | nil => simp [hp] at hhead
    | cons c path => exact ⟨path, by rw [hp] at hhead; cases hhead; rfl⟩
  -- the field would have to start inside the header, behind a blank
  have hlen := congrArg List.length hrecord
  have hfield : pre ++ [b, '/'] <+: a.header ++ a.path := by
    refine List.IsPrefix.trans ⟨path ++ more, ?_⟩ (List.take_prefix (pathMax - 1) _)
    rw [hrecord, hpath]
    simp
  have hheader : pre ++ [b, '/'] <+: a.header := by
    refine List.prefix_of_prefix_length_le hfield (List.prefix_append _ _) ?_
    simp only [List.length_take, List.length_append, List.length_cons] at hlen h ⊢
    simp only [List.length_nil]
    omega
  obtain ⟨after, hafter⟩ := hheader
  have hchain := List.IsChain.left_of_append (hafter ▸ header_noBlankSlash a)
  exact (List.isChain_append.mp hchain).2.1.rel hb rfl

theorem eq_nil_of_fields {front : List Str} {t F : Str} (h : front ++ [t ++ F] = [F]) :
    front = [] ∧ t = [] := by
  cases front with
  | nil => simpa using h
  | cons G front => simp at h

theorem legible_of_wrparse (h : ∀ rest, wrparse (a.record ++ rest) = a.path :: wrparse rest) :
    a.Legible := by
  rcases Nat.lt_trichotomy ((a.header ++ a.path).length + 1) pathMax with hroom | hfull | hcut
  · have hread := h []
    have hlen : (a.cmdname ++ (a.middle ++ '\t' :: (a.path ++ ['\n']))).length < filenameMax := by
      rw [record_eq] at hroom
      show _ < pathMax
      simpa [Nat.add_assoc] using hroom
    obtain ⟨front, t, hfields, hquiet⟩ := wrparse_tail (middle_plain a) rfl (path_ne_nil a)
      (path_noNewline a) (.inr rfl) hlen
    rw [List.append_nil, record_whole hroom, hfields, wrparse_nil] at hread
    obtain ⟨hfront, ht⟩ := eq_nil_of_fields hread
    exact ⟨hquiet hfront ht, .inl hroom⟩
  · have hrecord : a.record = a.cmdname ++ (a.middle ++ '\t' :: a.path) := by
      rw [record_cut (Nat.le_of_eq hfull.symm), List.take_of_length_le (by omega), record_eq]
    rw [record_eq] at hfull
    by_cases hend : '\n' ∈ a.cmdname
    · -- the lost end of the line joins the path with what follows
      obtain ⟨w, r, hname, hw, hr⟩ := exists_run (· != '\n') a.cmdname
      have hline : '\n' ∉ w := fun h => by simpa using hw _ h
      cases r with
      | nil => exact absurd (hname ▸ hend) (by simpa using hline)
      | cons c r =>
        obtain rfl : c = '\n' := by simpa using hr c r rfl
        have hread := h ['x']
        simp only [hname, List.length_append, List.length_cons] at hfull
        have hroom : w.length + 1 < filenameMax := by
          show _ < pathMax
          omega
        have hlen : (r ++ (a.middle ++ '\t' :: (a.path ++ ['x'] ++ []))).length < filenameMax := by
          show _ < pathMax
          simp only [List.length_append, List.length_cons, List.length_nil]
          omega
        have hnl : '\n' ∉ a.path ++ ['x'] := by
          simpa using path_noNewline a
        obtain ⟨front, t, hfields, _⟩ := wrparse_tail (middle_plain a) rfl (by simp) hnl (.inl rfl) hlen
        have hx : wrparse ['x'] = [] := by decide +kernel
        rw [List.append_nil] at hfields
        rw [hrecord, hname, hx] at hread
        simp only [List.append_assoc, List.cons_append] at hread hfields
        rw [wrparse_line hline hroom, hfields] at hread
        have hlong : t ++ (a.path ++ ['x']) ∈ [a.path] := by simp [← hread]
        have := congrArg List.length (List.mem_singleton.mp hlong)
        simp only [List.length_append, List.length_cons] at this
        omega
    · have hread := h []
      have hlen : (a.cmdname ++ (a.middle ++ '\t' :: (a.path ++ []))).length < filenameMax := by
        rw [List.append_nil]
        exact Nat.lt_of_succ_le (Nat.le_of_eq hfull)
      obtain ⟨front, t, hfields, hquiet⟩ := wrparse_tail (middle_plain a) rfl (path_ne_nil a)
        (path_noNewline a) (.inl rfl) hlen
      rw [List.append_nil] at hfields
      rw [List.append_nil, hrecord, hfields, wrparse_nil] at hread
      obtain ⟨hfront, ht⟩ := eq_nil_of_fields hread
      exact ⟨hquiet hfront ht, .inr ⟨by rw [record_eq]; exact hfull, hend⟩⟩
  · have hread := h []
    rw [List.append_nil, wrparse_nil] at hread
    exact absurd (by simp [hread]) (path_not_mem_of_cut hcut)

/-- The log is read back access by access: each record is one field in front of any log exactly if
its access is legible, and a log of legible accesses gives their paths in order. -/
theorem log_round_trip (a : Access) (log : List Access) :
    ((∀ rest, wrparse (a.record ++ rest) = a.path :: wrparse rest) ↔ a.Legible) ∧
      ((∀ b ∈ log, b.Legible) → wrparse (log.flatMap Access.record) = log.map Access.path) := by
  refine ⟨⟨legible_of_wrparse, wrparse_record⟩, fun h => ?_⟩
  induction log with
  | nil => rfl
  | cons b log ih =>
    rw [List.flatMap_cons, List.map_cons, wrparse_record (h b (by simp)),
      ih fun c hc => h c (List.mem_cons_of_mem b hc)]

/-- A file that `mkdir` of a shell script has made. -/
def sampleAccess (name : String) (h : ProcName name.toList) : Access :=
  { names := ["make".toList, name.toList]
    procs := by
      intro p hp
      rcases List.mem_cons.mp hp with rfl | hp
      · exact .program "make".toList
      · rw [List.mem_singleton.mp hp]
        exact h
    func := "mkdir".toList
    wrapped := by decide +kernel
    file := "/usr/./lib//x/../y".toList
    absolute := rfl
    noNewline := by decide
    short := by decide }

theorem log_round_trip_sample :
    wrparse ([sampleAccess "install" (.program "/bin/install".toList)].flatMap Access.record) =
      ["/usr/lib/y".toList] := by
  have hplain : (sampleAccess "install" (.program "/bin/install".toList)).cmdname.all (fun c =>
    !blank c) = true := by
    decide +kernel
  have hread := (log_round_trip (sampleAccess "install" (.program "/bin/install".toList))
    [sampleAccess "install" (.program "/bin/install".toList)]).2 (by
    intro a ha
    rw [List.mem_singleton.mp ha]
    exact ⟨.last (by decide +kernel) (fun c hc => by simpa using List.all_eq_true.mp hplain c hc),
      .inl (by decide +kernel)⟩)
  rw [hread]
  decide +kernel

/-- A program with a blank in its name. -/
theorem log_splits_early :
    wrparse (sampleAccess "my tool" (.program "my tool".toList)).record =
      ["tool.mkdir:\t/usr/lib/y".toList] := by
  decide +kernel

end Accesses

end T2SDE.FlWrapper
