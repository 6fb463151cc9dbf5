import Mathlib.Algebra.GroupWithZero.Nat
import T2SDE.FlLog
import T2SDE.FileList
import T2SDE.Lib.Xargs

namespace T2SDE.GetFiles

open Text Xargs
open FlWrapper (fgets)

section Program

def bufferSize : Nat := 512

/-- The name in a buffer: what is behind the first blank, up to the end of the line. -/
def fileName (buf : Str) : Option Str :=
  match buf.dropWhile (· != ' ') with
  | [] => none
  | _ :: fn => some (fn.takeWhile (· != '\n'))

/-- The loop over standard input. The empty name is no file, whatever files there are. -/
def getfilesLoop (regular : Str → Bool) : Nat → Str → List Str
  | 0, _ => []
  | fuel + 1, s =>
    if s = [] then []
    else
      match fileName (fgets (bufferSize - 1) s).1 with
      | none => []
      | some fn => (if fn ≠ [] ∧ regular fn then [fn] else []) ++
        getfilesLoop regular fuel (fgets (bufferSize - 1) s).2

/-- The names that getfiles prints for a list, one on a line. -/
def getfiles (regular : Str → Bool) (list : Str) : List Str := getfilesLoop regular list.length list

def adm : Str := "var/adm/".toList

/-- The arguments of `md5sum` for the lines of files.lst. -/
def md5sumArgs (files : List Str) : List Str :=
  xargs ((files.filter fun line => !decide (adm <+: line)).flatMap quoted)

end Program

section Purpose

/-- A list is printed as it should be: its regular files in order, and `md5sum` gets those
outside of var/adm as operands. -/
def Listed (l : FileList) (regular : Str → Bool) : Prop :=
  getfiles regular l.text = l.paths.filter regular ∧
    ∀ p ∈ l.paths, regular p → ¬adm <+: p → p ∈ md5sumArgs (getfiles regular l.text) ∧ p.head? ≠ some '-'

/-- The lines fit into the buffer: the last one without its newline. -/
def Fits (pkg : Str) (paths : List Str) : Prop :=
  (∀ p ∈ paths.dropLast, (FileList.entry pkg p).length < bufferSize - 1) ∧
    ∀ p ∈ paths.getLast?, (FileList.entry pkg p).length ≤ bufferSize - 1

/-- A name that is one operand between double quotes. -/
def Quotable (p : Str) : Prop := '"' ∉ p ∧ p.head? ≠ some '-'

end Purpose

section Loop

variable {regular : Str → Bool} {pkg p r s : Str} {paths : List Str} {l : FileList}

theorem fileName_newline (buf : Str) : fileName (buf ++ ['\n']) = fileName buf := by
  have hstop : ∀ fn : Str, (fn ++ ['\n']).takeWhile (· != '\n') = fn.takeWhile (· != '\n') := by
    intro fn
    rw [List.takeWhile_append]
    split
    next h => simpa using ((List.takeWhile_prefix (l := fn) (· != '\n')).eq_of_length h).symm
    next => rfl
  unfold fileName
  rw [List.dropWhile_append]
  cases hdrop : buf.dropWhile (· != ' ') with
  | nil => simp
  | cons c fn => simp [hstop]

theorem fileName_entry (hpkg : ' ' ∉ pkg) (hp : '\n' ∉ p) : fileName (FileList.entry pkg p) = some p := by
  have hp : ∀ c ∈ p, (c != '\n') = true := fun c hc => by simpa using fun h : c = '\n' => hp (h ▸ hc)
  rw [fileName, FileList.entry_name hpkg]
  simp only [List.takeWhile_eq_self_iff.mpr hp]

/-- A name is shorter than what it is read from. -/
theorem fileName_lt {buf fn : Str} (h : fileName buf = some fn) : fn.length < buf.length := by
  unfold fileName at h
  split at h
  · cases h
  next c rest hdrop =>
    cases h
    have hle := (List.takeWhile_sublist (l := rest) (· != '\n')).length_le
    have hsub := (List.dropWhile_sublist (l := buf) (· != ' ')).length_le
    rw [hdrop, List.length_cons] at hsub
    omega

def total (names : List Str) : Nat := (names.map List.length).sum

theorem loop_newline (fuel : Nat) (s : Str) : getfilesLoop regular fuel ('\n' :: s) = [] := by
  cases fuel with
  | zero => rfl
  | succ fuel => simp [getfilesLoop, fgets, bufferSize, fileName]

theorem loop_short (hpkg : ' ' ∉ pkg ∧ '\n' ∉ pkg) (hp : '\n' ∉ p)
    (hlen : (FileList.entry pkg p).length < bufferSize - 1) (fuel : Nat) (s : Str) :
    getfilesLoop regular (fuel + 1) (FileList.entry pkg p ++ '\n' :: s) =
      (if p ≠ [] ∧ regular p then [p] else []) ++ getfilesLoop regular fuel s := by
  have hread : fgets (bufferSize - 1) (FileList.entry pkg p ++ '\n' :: s) = _ :=
    FlWrapper.fgets_line (FileList.entry_no_newline hpkg.2 hp) hlen
  rw [getfilesLoop, if_neg (by simp), hread, fileName_newline, fileName_entry hpkg.1 hp]

/-- A line that fills the buffer leaves its newline to the next call, which ends the loop. -/
theorem loop_full (hpkg : ' ' ∉ pkg ∧ '\n' ∉ pkg) (hp : '\n' ∉ p)
    (hlen : (FileList.entry pkg p).length = bufferSize - 1) (fuel : Nat) (s : Str) :
    getfilesLoop regular (fuel + 1) (FileList.entry pkg p ++ '\n' :: s) =
      if p ≠ [] ∧ regular p then [p] else [] := by
  have hread : fgets (bufferSize - 1) (FileList.entry pkg p ++ '\n' :: s) = _ :=
    FlWrapper.fgets_full (FileList.entry_no_newline hpkg.2 hp) hlen
  rw [getfilesLoop, if_neg (by simp), hread, fileName_entry hpkg.1 hp]
  simp only [loop_newline, List.append_nil]

theorem total_append (as bs : List Str) : total (as ++ bs) = total as + total bs := by simp [total]

theorem total_file (regular : Str → Bool) (fn : Str) :
    total (if fn ≠ [] ∧ regular fn then [fn] else []) ≤ fn.length := by
  split <;> simp [total]

/-- What is printed of the rest of a long line is shorter than the rest. -/
theorem total_rest {bound : Nat} (hbound : ∀ fuel, total (getfilesLoop regular fuel s) ≤ bound)
    (hr : '\n' ∉ r)
    (hne : r ≠ []) (fuel : Nat) : total (getfilesLoop regular fuel (r ++ '\n' :: s)) < r.length + bound := by
  have hpos : 0 < r.length := List.length_pos_of_ne_nil hne
  induction fuel generalizing r with
  | zero =>
    simp only [getfilesLoop, total, List.map_nil, List.sum_nil]
    omega
  | succ fuel ih =>
    rw [getfilesLoop, if_neg (by simp)]
    by_cases hlen : r.length < bufferSize - 1
    · rw [FlWrapper.fgets_line hr hlen, fileName_newline]
      cases hname : fileName r with
      | none =>
        simp only [total, List.map_nil, List.sum_nil]
        omega
      | some fn =>
        have hfn := fileName_lt hname
        have hfile := total_file regular fn
        have hrest := hbound fuel
        simp only [total_append]
        omega
    · have htake : (r.take (bufferSize - 1)).length = bufferSize - 1 := by
        rw [List.length_take]
        omega
      have hsplit := List.take_append_drop (bufferSize - 1) r
      have hlens := congrArg List.length hsplit
      rw [List.length_append] at hlens
      have hmem : ∀ c ∈ r.take (bufferSize - 1) ++ r.drop (bufferSize - 1), c ≠ '\n' := by
        rw [hsplit]
        exact fun c hc h => hr (h ▸ hc)
      have hread : fgets (bufferSize - 1) (r.take (bufferSize - 1) ++
        (r.drop (bufferSize - 1) ++ '\n' :: s)) = _ :=
        FlWrapper.fgets_full (fun h => hmem _ (List.mem_append_left _ h) rfl) htake
      rw [← List.append_assoc, hsplit] at hread
      rw [hread]
      cases hname : fileName (r.take (bufferSize - 1)) with
      | none =>
        simp only [total, List.map_nil, List.sum_nil]
        omega
      | some fn =>
        have hfn := fileName_lt hname
        have hfile := total_file regular fn
        simp only [total_append]
        by_cases hend : r.drop (bufferSize - 1) = []
        · simp only [hend, List.nil_append, loop_newline, total, List.map_nil, List.sum_nil] at hfile hlens ⊢
          omega
        · have := ih (fun h => hmem _ (List.mem_append_right _ h) rfl) hend (List.length_pos_of_ne_nil hend)
          omega

/-- Of a line that does not fit, less is printed than its name. -/
theorem total_long {bound : Nat} (hbound : ∀ fuel, total (getfilesLoop regular fuel s) ≤ bound)
    (hpkg : ' ' ∉ pkg ∧ '\n' ∉ pkg) (hp : p ≠ [] ∧ '\n' ∉ p)
    (hlen : bufferSize - 1 < (FileList.entry pkg p).length) (fuel : Nat) :
    total (getfilesLoop regular fuel (FileList.entry pkg p ++ '\n' :: s)) < p.length + bound := by
  have hpos : 0 < p.length := List.length_pos_of_ne_nil hp.1
  rw [FileList.length_entry] at hlen
  cases fuel with
  | zero =>
    simp only [getfilesLoop, total, List.map_nil, List.sum_nil]
    omega
  | succ fuel =>
    rw [getfilesLoop, if_neg (by simp)]
    by_cases hroom : pkg.length + 2 ≤ bufferSize - 1
    · -- the first buffer ends within the name
      let k := bufferSize - 1 - (pkg.length + 2)
      have hsplit : FileList.entry pkg p = FileList.entry pkg (p.take k) ++ p.drop k := by
        simp [FileList.entry]
      have hk : (p.take k).length = k := by
        rw [List.length_take]
        omega
      have hname : '\n' ∉ p.take k := fun h => hp.2 (List.mem_of_mem_take h)
      have hrest : '\n' ∉ p.drop k := fun h => hp.2 (List.mem_of_mem_drop h)
      have hfull : (FileList.entry pkg (p.take k)).length = bufferSize - 1 := by
        rw [FileList.length_entry, hk]
        omega
      have hread : fgets (bufferSize - 1) (FileList.entry pkg (p.take k) ++ (p.drop k ++ '\n' :: s)) = _ :=
        FlWrapper.fgets_full (FileList.entry_no_newline hpkg.2 hname) hfull
      have hne : p.drop k ≠ [] := by
        intro h
        have := List.drop_eq_nil_iff.mp h
        omega
      have hlater := total_rest hbound hrest hne fuel
      have hfile := total_file regular (p.take k)
      rw [hsplit, List.append_assoc, hread, fileName_entry hpkg.1 hname]
      simp only [total_append]
      rw [List.length_drop] at hlater
      omega
    · -- the first buffer has no blank
      have hsplit : FileList.entry pkg p =
          (pkg ++ [':']).take (bufferSize - 1) ++ ((pkg ++ [':']).drop (bufferSize - 1) ++ ' ' :: p) := by
        rw [← List.append_assoc, List.take_append_drop]
        simp [FileList.entry]
      have hchars : ∀ c ∈ (pkg ++ [':']).take (bufferSize - 1), c ≠ ' ' ∧ c ≠ '\n' := by
        intro c hc
        rcases List.mem_append.mp (List.mem_of_mem_take hc) with hc | hc
        · exact ⟨fun h => hpkg.1 (h ▸ hc), fun h => hpkg.2 (h ▸ hc)⟩
        · rw [List.mem_singleton.mp hc]
          decide
      have hfull : ((pkg ++ [':']).take (bufferSize - 1)).length = bufferSize - 1 := by
        rw [List.length_take, List.length_append, List.length_singleton]
        omega
      have hread : fgets (bufferSize - 1) ((pkg ++ [':']).take (bufferSize - 1) ++
          (((pkg ++ [':']).drop (bufferSize - 1) ++ ' ' :: p) ++ '\n' :: s)) = _ :=
        FlWrapper.fgets_full (fun h => (hchars _ h).2 rfl) hfull
      have hnone : ((pkg ++ [':']).take (bufferSize - 1)).dropWhile (· != ' ') = [] :=
        List.dropWhile_eq_nil_iff.mpr fun c hc => by simpa using (hchars c hc).1
      rw [hsplit, List.append_assoc, hread, fileName, hnone]
      simp only [total, List.map_nil, List.sum_nil]
      omega

end Loop

section List

variable {regular : Str → Bool} {l : FileList} {pkg : Str} {paths : List Str}

/-- The text of the lines of some paths. -/
def lines (pkg : Str) (paths : List Str) : Str := paths.flatMap fun path => FileList.entry pkg path ++ ['\n']

theorem lines_cons (pkg p : Str) (paths : List Str) :
    lines pkg (p :: paths) = FileList.entry pkg p ++ '\n' :: lines pkg paths := by simp [lines]

theorem fits_cons {p q : Str} :
    Fits pkg (p :: q :: paths) ↔ (FileList.entry pkg p).length < bufferSize - 1 ∧ Fits pkg (q :: paths) := by
  simp [Fits, and_assoc]

theorem fits_tail {p : Str} (h : Fits pkg (p :: paths)) : Fits pkg paths := by
  cases paths with
  | nil => simp [Fits]
  | cons q paths => exact (fits_cons.mp h).2

theorem total_le (hpkg : ' ' ∉ pkg ∧ '\n' ∉ pkg) (hpaths : ∀ p ∈ paths, p ≠ [] ∧ '\n' ∉ p) (fuel : Nat) :
    total (getfilesLoop regular fuel (lines pkg paths)) ≤ total paths := by
  induction paths generalizing fuel with
  | nil => cases fuel <;> simp [getfilesLoop, lines, total]
  | cons p paths ih =>
    have ih := ih fun q hq => hpaths q (List.mem_cons_of_mem p hq)
    have hp := hpaths p List.mem_cons_self
    have htotal : total (p :: paths) = p.length + total paths := by simp [total]
    have hfile := total_file regular p
    rw [lines_cons, htotal]
    rcases Nat.lt_trichotomy (FileList.entry pkg p).length (bufferSize - 1) with hlen | hlen | hlen
    · cases fuel with
      | zero => simp [getfilesLoop, total]
      | succ fuel =>
        have := ih fuel
        rw [loop_short hpkg hp.2 hlen, total_append]
        omega
    · cases fuel with
      | zero => simp [getfilesLoop, total]
      | succ fuel =>
        rw [loop_full hpkg hp.2 hlen]
        omega
    · exact (total_long ih hpkg hp hlen fuel).le

/-- Less is printed of a list with a line that does not fit. -/
theorem total_lt (hpkg : ' ' ∉ pkg ∧ '\n' ∉ pkg) (hpaths : ∀ p ∈ paths, p ≠ [] ∧ '\n' ∉ p)
    (hfits : ¬Fits pkg paths) (fuel : Nat) :
    total (getfilesLoop regular fuel (lines pkg paths)) < total paths := by
  induction paths generalizing fuel with
  | nil => exact absurd (by simp [Fits]) hfits
  | cons p paths ih =>
    have hrest : ∀ q ∈ paths, q ≠ [] ∧ '\n' ∉ q := fun q hq => hpaths q (List.mem_cons_of_mem p hq)
    have hp := hpaths p List.mem_cons_self
    have hpos : 0 < p.length := List.length_pos_of_ne_nil hp.1
    have htotal : total (p :: paths) = p.length + total paths := by simp [total]
    have hfile := total_file regular p
    rw [lines_cons, htotal]
    rcases Nat.lt_trichotomy (FileList.entry pkg p).length (bufferSize - 1) with hlen | hlen | hlen
    · cases fuel with
      | zero =>
        simp only [getfilesLoop, total, List.map_nil, List.sum_nil]
        omega
      | succ fuel =>
        have hlater : ¬Fits pkg paths := by
          intro h
          cases paths with
          | nil => exact hfits (by simpa [Fits] using hlen.le)
          | cons q paths => exact hfits (fits_cons.mpr ⟨hlen, h⟩)
        have := ih hrest hlater fuel
        rw [loop_short hpkg hp.2 hlen, total_append]
        omega
    · cases fuel with
      | zero =>
        simp only [getfilesLoop, total, List.map_nil, List.sum_nil]
        omega
      | succ fuel =>
        -- the line is not the last one
        cases paths with
        | nil => exact absurd (by simpa [Fits] using hlen.le) hfits
        | cons q paths =>
          have hq := List.length_pos_of_ne_nil (hrest q List.mem_cons_self).1
          have htotal' : total (q :: paths) = q.length + total paths := by simp [total]
          rw [loop_full hpkg hp.2 hlen, htotal']
          omega
    · exact total_long (total_le hpkg hrest) hpkg hp hlen fuel

theorem loop_fits (hpkg : ' ' ∉ pkg ∧ '\n' ∉ pkg) (hpaths : ∀ p ∈ paths, p ≠ [] ∧ '\n' ∉ p)
    (hfits : Fits pkg paths) {fuel : Nat} (hfuel : paths.length ≤ fuel) :
    getfilesLoop regular fuel (lines pkg paths) = paths.filter regular := by
  induction paths generalizing fuel with
  | nil => cases fuel <;> simp [getfilesLoop, lines]
  | cons p paths ih =>
    obtain ⟨fuel, rfl⟩ := Nat.exists_eq_add_of_le' (Nat.le_trans (Nat.le_add_left 1 paths.length) hfuel)
    rw [List.length_cons] at hfuel
    have ih := ih (fun q hq => hpaths q (List.mem_cons_of_mem p hq)) (fits_tail hfits)
      (by omega : paths.length ≤ fuel)
    have hp := hpaths p List.mem_cons_self
    have hfile : (if p ≠ [] ∧ regular p then [p] else []) = [p].filter regular := by
      simp [hp.1, List.filter_cons]
    rw [lines_cons]
    by_cases hlen : (FileList.entry pkg p).length < bufferSize - 1
    · rw [loop_short hpkg hp.2 hlen, ih, hfile, ← List.filter_append, List.singleton_append]
    · -- only the last line may fill the buffer
      cases paths with
      | nil =>
        have hle : (FileList.entry pkg p).length ≤ bufferSize - 1 := hfits.2 p rfl
        rw [loop_full hpkg hp.2 (by omega), hfile]
      | cons q paths => exact absurd (fits_cons.mp hfits).1 hlen

end List

section Listed

variable {regular : Str → Bool} {l : FileList} {files : List Str} {p : Str}

theorem length_lines (pkg : Str) (paths : List Str) : paths.length ≤ (lines pkg paths).length := by
  induction paths with
  | nil => simp
  | cons p paths ih =>
    rw [lines_cons, List.length_append, List.length_cons, List.length_cons]
    omega

theorem getfiles_fits (h : Fits l.pkg l.paths) : getfiles regular l.text = l.paths.filter regular :=
  loop_fits ⟨l.pkg_no_blank, l.pkg_no_newline⟩ (fun _ hp =>
    ⟨FileList.path_ne_nil hp, FileList.path_no_newline hp⟩)
    h (length_lines l.pkg l.paths)

theorem fits_of_getfiles (h : getfiles (fun _ => true) l.text = l.paths) : Fits l.pkg l.paths := by
  by_contra hfits
  have hlt : total (getfiles (fun _ => true) l.text) < total l.paths :=
    total_lt ⟨l.pkg_no_blank, l.pkg_no_newline⟩
      (fun _ hp => ⟨FileList.path_ne_nil hp, FileList.path_no_newline hp⟩) hfits l.text.length
  exact absurd (congrArg total h) (Nat.ne_of_lt hlt)

theorem md5sumArgs_eq (h : ∀ f ∈ files, ¬adm <+: f → '"' ∉ f) (hline : ∀ f ∈ files, '\n' ∉ f) :
    md5sumArgs files = files.filter fun f => !decide (adm <+: f) := by
  refine xargs_lines (fun f hf => ?_) (fun f hf => hline f (List.mem_filter.mp hf).1)
  obtain ⟨hf, hadm⟩ := List.mem_filter.mp hf
  exact h f hf (by simpa using hadm)

/-- A name with a double quote in it is lost, whatever else is given to `xargs`. -/
theorem not_mem_md5sumArgs (hquote : '"' ∈ p) (hline : '\n' ∉ p) (hfiles : ∀ f ∈ files, f = p) :
    p ∉ md5sumArgs files := by
  have hsame : files.filter (fun line => !decide (adm <+: line)) =
      List.replicate (files.filter fun line => !decide (adm <+: line)).length p :=
    List.eq_replicate_iff.mpr ⟨rfl, fun f hf => hfiles f (List.mem_filter.mp hf).1⟩
  rw [md5sumArgs, hsame]
  exact not_mem_xargs hquote hline _

end Listed

/-- Every list is printed as it should be, whatever files there are, if and only if its lines fit
into the buffer and the names outside of var/adm are operands between double quotes. -/
theorem listed_iff (l : FileList) :
    (∀ regular, Listed l regular) ↔
      Fits l.pkg l.paths ∧ ∀ p ∈ l.paths, ¬adm <+: p → Quotable p := by
  constructor
  · intro h
    have hfits : Fits l.pkg l.paths := fits_of_getfiles (by simpa using (h fun _ => true).1)
    refine ⟨hfits, fun p hp hadm => ?_⟩
    obtain ⟨-, hsum⟩ := h fun q => decide (q = p)
    obtain ⟨hmem, hhead⟩ := hsum p hp (by simp) hadm
    refine ⟨fun hquote => ?_, hhead⟩
    refine not_mem_md5sumArgs hquote (FileList.path_no_newline hp) (fun f hf => ?_) hmem
    rw [getfiles_fits hfits] at hf
    simpa using (List.mem_filter.mp hf).2
  · rintro ⟨hfits, hquotable⟩ regular
    refine ⟨getfiles_fits hfits, fun p hp hreg hadm => ⟨?_, (hquotable p hp hadm).2⟩⟩
    rw [getfiles_fits hfits, md5sumArgs_eq (fun f hf hf' => (hquotable f (List.mem_filter.mp hf).1 hf').1)
      (fun f hf => FileList.path_no_newline (List.mem_filter.mp hf).1)]
    simp [hp, hreg, hadm]

def longName : Str := List.replicate 509 'x'

theorem longName_line : longName ≠ [] ∧ ∀ c ∈ longName, c ∉ ['\n', CString.nul] := by
  refine ⟨List.ne_nil_of_length_eq_add_one (n := 508) List.length_replicate, fun c hc => ?_⟩
  rw [List.eq_of_mem_replicate hc]
  simp [CString.nul]

theorem longList_pkg : ∀ c ∈ ['a'], c ∉ [' ', '\t', '\n', CString.nul] := not_mem_of_all rfl

theorem longList_paths : ∀ p ∈ longName :: [['b']], p ≠ [] ∧ ∀ c ∈ p, c ∉ ['\n', CString.nul] := by
  intro p hp
  rcases List.mem_cons.mp hp with rfl | hp
  · exact longName_line
  · rw [List.mem_singleton.mp hp]
    exact ⟨List.cons_ne_nil 'b' [], not_mem_of_all rfl⟩

/-- A name of 509 characters and one behind it. -/
def longList : FileList where
  pkg := ['a']
  paths := longName :: [['b']]
  pkg_word := longList_pkg
  path_line := longList_paths

theorem long_not_listed : ¬Listed longList fun _ => true := by
  intro h
  have hfits : Fits longList.pkg longList.paths := fits_of_getfiles (by simpa using h.1)
  have hlen := hfits.1 longName List.mem_cons_self
  rw [FileList.length_entry, longName, List.length_replicate] at hlen
  exact absurd hlen (by decide)

end T2SDE.GetFiles
