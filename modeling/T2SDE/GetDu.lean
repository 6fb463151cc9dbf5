import Mathlib.Data.Nat.ModEq
import T2SDE.FileList

namespace T2SDE.GetDu

open Text

section Program

inductive Entry
  | other
  | regular (size : Nat)

def bufferSize : Nat := 512

/-- White space of `scanf`. -/
def isspace (c : Char) : Bool := c == ' ' || (9 ≤ c.toNat && c.toNat ≤ 13)

/-- The range of an `int`. -/
def wrap (n : Int) : Int := n.bmod (2 ^ 32)

def addEntry (size : Int) : Option Entry → Int
  | none => size
  | some .other => wrap (size + 512)
  | some (.regular n) => wrap (wrap (size + n) + 512)

/-- The loop over the words of the list; none where a name overruns its buffer. -/
def getduLoop (lstat : Str → Option Entry) : List Str → Int → Option Int
  | _ :: fn :: words, size =>
    if fn.length < bufferSize then getduLoop lstat words (addEntry size (lstat fn)) else none
  | _, size => some size

/-- The byte count that is divided for the output. -/
def getdu (lstat : Str → Option Entry) (list : Str) : Option Int := getduLoop lstat (tokens isspace list) 0

end Program

section Purpose

variable (lstat : Str → Option Entry)

def weight : Option Entry → Nat
  | none => 0
  | some .other => 512
  | some (.regular n) => n + 512

/-- The size of some files without any bound. -/
def exactSize (paths : List Str) : Nat := (paths.map fun p => weight (lstat p)).sum

/-- Every second word. -/
def names : List Str → List Str
  | _ :: fn :: words => fn :: names words
  | _ => []

/-- The names that a list gives when it is read word by word. -/
def namesRead (l : FileList) : List Str := names (tokens isspace l.text)

/-- A list without white space in its names. -/
def Plain (l : FileList) : Prop := (∀ c ∈ l.pkg, isspace c = false) ∧ ∀ p ∈ l.paths, ∀ c ∈ p,
    isspace c = false

end Purpose

section Size

variable {lstat : Str → Option Entry} {l : FileList}

theorem addEntry_wrap (size : Int) (e : Option Entry) : addEntry (wrap size) e = wrap (size + weight e) := by
  have hadd : ∀ a b : Int, wrap (wrap a + b) = wrap (a + b) := fun a b => Int.bmod_add_bmod
  match e with
  | none => exact congrArg wrap (Int.add_zero size).symm
  | some .other => exact hadd size 512
  | some (.regular n) =>
    calc addEntry (wrap size) (some (.regular n)) = wrap (wrap size + (n + 512)) := by
          rw [addEntry, hadd, Int.add_assoc]
      _ = wrap (size + (n + 512)) := hadd size (n + 512)

theorem getduLoop_eq (words : List Str) (size : Int) :
    getduLoop lstat words (wrap size) =
      if ∀ n ∈ names words, n.length < bufferSize then some (wrap (size + exactSize lstat (names words)))
      else none := by
  fun_induction names words generalizing size with
  | case1 word fn words ih =>
    rw [getduLoop, addEntry_wrap, ih]
    by_cases hfn : fn.length < bufferSize
    · have hsum : size + weight (lstat fn) + exactSize lstat (names words) =
          size + exactSize lstat (fn :: names words) := by
        simp only [exactSize, List.map_cons, List.sum_cons]
        omega
      simp only [hfn, if_true, List.forall_mem_cons, true_and, hsum]
    · simp only [hfn, if_false, List.forall_mem_cons, false_and]
  | case2 words hwords =>
    have hend : getduLoop lstat words (wrap size) = some (wrap size) := by
      unfold getduLoop
      split
      next fn rest => exact absurd rfl (hwords _ fn rest)
      next => rfl
    simp [hend, exactSize]

theorem wrap_iff (n m : Nat) : wrap n = m ↔ m < 2 ^ 31 ∧ n ≡ m [MOD 2 ^ 32] := by
  simp only [wrap, Int.bmod, Nat.ModEq]
  split <;> omega

/-- Read word by word, a list without white space in its names is what it should be. -/
theorem namesRead_plain (h : Plain l) : namesRead l = l.paths := by
  obtain ⟨hpkg, hpaths⟩ := h
  have hword : ∀ c ∈ l.pkg ++ [':'], isspace c = false := by
    intro c hc
    rcases List.mem_append.mp hc with hc | hc
    · exact hpkg c hc
    · rw [List.mem_singleton.mp hc]
      decide
  have hline : ∀ p rest, p ≠ [] → (∀ c ∈ p, isspace c = false) →
      names (tokens isspace (FileList.entry l.pkg p ++ ['\n'] ++ rest)) =
        p :: names (tokens isspace rest) := by
    intro p rest hne hp
    have htext : FileList.entry l.pkg p ++ ['\n'] ++ rest =
      (l.pkg ++ [':']) ++ ' ' :: (p ++ '\n' :: rest) := by
      simp [FileList.entry]
    rw [htext, tokens_append_sep (d := ' ') rfl, tokens_append_sep (d := '\n') rfl,
      tokens_word (by simp) hword,
      tokens_word hne hp]
    rfl
  have hlines : ∀ paths : List Str, (∀ p ∈ paths, p ≠ [] ∧ ∀ c ∈ p, isspace c = false) →
      names (tokens isspace (paths.flatMap fun path => FileList.entry l.pkg path ++ ['\n'])) = paths := by
    intro paths hpaths
    induction paths with
    | nil => rfl
    | cons p paths ih =>
      have hp := hpaths p List.mem_cons_self
      rw [List.flatMap_cons, hline p _ hp.1 hp.2, ih fun q hq => hpaths q (List.mem_cons_of_mem p hq)]
  exact hlines l.paths fun p hp => ⟨FileList.path_ne_nil hp, hpaths p hp⟩

end Size

/-- The count is exact where the names fit, the sum fits and the words that are read as names
have the size of the listed files, as they do where no name has white space in it. -/
theorem getdu_exact_iff (lstat : Str → Option Entry) (l : FileList) :
    (getdu lstat l.text = some (exactSize lstat l.paths : Int) ↔
      (∀ n ∈ namesRead l, n.length < bufferSize) ∧ exactSize lstat l.paths < 2 ^ 31 ∧
        exactSize lstat (namesRead l) ≡ exactSize lstat l.paths [MOD 2 ^ 32]) ∧
      (Plain l → namesRead l = l.paths) := by
  refine ⟨?_, namesRead_plain⟩
  have hloop : getduLoop lstat (tokens isspace l.text) (wrap 0) = _ := getduLoop_eq (tokens isspace l.text) 0
  have hzero : wrap 0 = 0 := rfl
  rw [hzero, Int.zero_add] at hloop
  rw [getdu, hloop, ← wrap_iff, ← namesRead]
  by_cases hshort : ∀ n ∈ namesRead l, n.length < bufferSize
  · rw [if_pos hshort, Option.some_inj]
    exact ⟨fun h => ⟨hshort, h⟩, And.right⟩
  · rw [if_neg hshort]
    simp only [reduceCtorEq, hshort, false_and]

theorem sample_pkg : ∀ c ∈ ['a'], c ∉ [' ', '\t', '\n', CString.nul] := not_mem_of_all rfl

theorem sample_paths : ∀ p ∈ [['b']], p ≠ [] ∧ ∀ c ∈ p, c ∉ ['\n', CString.nul] := by
  intro p hp
  rw [List.mem_singleton.mp hp]
  exact ⟨List.cons_ne_nil 'b' [], not_mem_of_all rfl⟩

def sampleList : FileList where
  pkg := ['a']
  paths := [['b']]
  pkg_word := sample_pkg
  path_line := sample_paths

/-- One file of two gigabytes. -/
theorem getdu_wraps :
    getdu (fun _ => some (.regular (2 ^ 31))) sampleList.text ≠
      some (exactSize (fun _ => some (.regular (2 ^ 31))) sampleList.paths : Int) := by
  decide +kernel

end T2SDE.GetDu
