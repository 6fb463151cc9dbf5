import Mathlib.Data.Int.Init
import Mathlib.Data.List.GetD
import T2SDE.Lib.CString

namespace Snprintf

open Text CString

/-- The memory by the distance from the start of a buffer. -/
abbrev Mem := Int → Char

/-- A signed number of 32 bits. -/
def int32 (n : Int) : Int := n.bmod 4294967296

/-- The number as an unsigned one of 64 bits. -/
def size (n : Int) : Nat := (n % 18446744073709551616).toNat

/-- What is written of a text, with the byte that ends it. -/
def cut (n : Nat) (text : Str) : Str := if n = 0 then [] else text.take (n - 1) ++ [nul]

/-- The length that the whole text has. -/
def result (text : Str) : Int := if text.length ≤ 2147483647 then text.length else -1

def store (mem : Mem) (pos : Int) (bytes : Str) : Mem := fun a =>
  if pos ≤ a ∧ a < pos + bytes.length then bytes.getD (a - pos).toNat nul else mem a

/-- A buffer with the position in it, and where it has been written. -/
structure Buffer where
  mem : Mem
  pos : Int
  writes : List (Int × Nat)

/-- `pos += snprintf(buffer + pos, capacity - pos, ...)` -/
def print (capacity : Nat) (b : Buffer) (text : Str) : Buffer :=
  let bytes := cut (size (capacity - b.pos)) text
  ⟨store b.mem b.pos bytes, int32 (b.pos + result text), b.writes ++ [(b.pos, bytes.length)]⟩

def printAll (capacity : Nat) (b : Buffer) (texts : List Str) : Buffer := texts.foldl (print capacity) b

/-- Nothing is written outside the buffer. -/
def Buffer.Inside (capacity : Nat) (b : Buffer) : Prop :=
  ∀ w ∈ b.writes, ∀ k < w.2, 0 ≤ w.1 + k ∧ w.1 + k < capacity

/-- The string at the start of the buffer. -/
def Holds (mem : Mem) (s : Str) : Prop :=
  (∀ k (h : k < s.length), mem k = s[k]) ∧ mem s.length = nul

section Store

variable {mem : Mem} {pos a : Int} {bytes s text : Str} {k capacity : Nat} {b : Buffer} {texts : List Str}

theorem store_inside (h : k < bytes.length) : store mem pos bytes (pos + k) = bytes[k] := by
  have hdiff : (pos + k - pos).toNat = k := by omega
  rw [store, if_pos (by omega), hdiff, List.getD_eq_getElem _ _ h]

theorem store_outside (h : ¬(pos ≤ a ∧ a < pos + bytes.length)) : store mem pos bytes a = mem a := if_neg h

theorem size_of_nonneg {n : Nat} (h : n ≤ 2147483647) : size n = n := by
  rw [size]
  omega

theorem int32_small {n : Nat} (h : n ≤ 2147483647) : int32 n = n := by
  rw [int32]
  exact Int.bmod_eq_of_le (by omega) (by omega)

theorem holds_store (h : ∀ k (h : k < s.length), mem k = s[k]) :
    Holds (store mem s.length (text ++ [nul])) (s ++ text) := by
  have hlength : (text ++ [nul]).length = text.length + 1 := by
    rw [List.length_append, List.length_singleton]
  constructor
  · intro k hk
    rw [List.length_append] at hk
    rcases Nat.lt_or_ge k s.length with hlt | hge
    · rw [store_outside (by omega), h k hlt, List.getElem_append_left hlt]
    · have hindex : (s.length : Int) + ((k - s.length : Nat) : Int) = k := by omega
      rw [← hindex, store_inside (by omega), List.getElem_append_right hge,
        List.getElem_append_left (by omega)]
  · rw [List.length_append, Int.natCast_add, store_inside (by omega),
      List.getElem_append_right (Nat.le_refl _)]
    simp

theorem mem_print (capacity : Nat) (b : Buffer) (text : Str) :
    (print capacity b text).mem = store b.mem b.pos (cut (size (capacity - b.pos)) text) := rfl

theorem pos_print (capacity : Nat) (b : Buffer) (text : Str) :
    (print capacity b text).pos = int32 (b.pos + result text) := rfl

theorem writes_print (capacity : Nat) (b : Buffer) (text : Str) :
    (print capacity b text).writes = b.writes ++ [(b.pos, (cut (size (capacity - b.pos)) text).length)] := rfl

/-- A text that fits is appended. -/
theorem print_fits (hpos : b.pos = s.length) (hcapacity : capacity ≤ 2147483647)
    (hfits : s.length + text.length < capacity) (hheld : ∀ k (h : k < s.length), b.mem k = s[k]) :
    (print capacity b text).pos = (s ++ text).length ∧ Holds (print capacity b text).mem (s ++ text) ∧
      (print capacity b text).writes = b.writes ++ [((s.length : Int), text.length + 1)] := by
  have hsize : size (capacity - b.pos) = capacity - s.length := by
    have hsub : (capacity : Int) - b.pos = ((capacity - s.length : Nat) : Int) := by omega
    rw [hsub, size_of_nonneg (by omega)]
  have hcut : cut (size (capacity - b.pos)) text = text ++ [nul] := by
    rw [hsize, cut, if_neg (by omega), List.take_of_length_le (by omega)]
  have hresult : result text = text.length := if_pos (by omega)
  have hlength : (text ++ [nul]).length = text.length + 1 := by
    rw [List.length_append, List.length_singleton]
  have hsum : (s.length : Int) + text.length = ((s ++ text).length : Nat) := by
    rw [List.length_append]
    exact (Int.natCast_add _ _).symm
  have hsmall : (s ++ text).length ≤ 2147483647 := by
    rw [List.length_append]
    omega
  refine ⟨?_, ?_, ?_⟩
  · rw [pos_print, hresult, hpos, hsum, int32_small hsmall]
  · rw [mem_print, hcut, hpos]
    exact holds_store hheld
  · rw [writes_print, hcut, hpos, hlength]

/-- Texts that fit together are appended one after the other. -/
theorem printAll_fits (hcapacity : capacity ≤ 2147483647) (hfits : s.length + texts.flatten.length < capacity)
    (hpos : b.pos = s.length) (hholds : Holds b.mem s) (hinside : b.Inside capacity) :
    (printAll capacity b texts).Inside capacity ∧
    Holds (printAll capacity b texts).mem (s ++ texts.flatten) := by
  induction texts generalizing b s with
  | nil =>
    rw [List.flatten_nil, List.append_nil]
    exact ⟨hinside, hholds⟩
  | cons text texts ih =>
    rw [List.flatten_cons, List.length_append] at hfits
    obtain ⟨hpos', hholds', hwrites⟩ := @print_fits s text capacity b hpos hcapacity (by omega) hholds.1
    rw [List.flatten_cons, ← List.append_assoc]
    refine ih (by rw [List.length_append]; omega) hpos' hholds' fun w hw k hk => ?_
    rw [hwrites] at hw
    rcases List.mem_append.mp hw with hw | hw
    · exact hinside w hw k hk
    · rw [List.mem_singleton.mp hw] at hk ⊢
      dsimp only at hk ⊢
      omega

/-- Somewhere in the buffer a string ends. -/
def Ended (capacity : Nat) (b : Buffer) : Prop := ∃ a : Nat, a < capacity ∧ b.mem a = nul

theorem cut_last (h : cut k text ≠ []) : ∃ out, cut k text = out ++ [nul] := by
  rw [cut] at h ⊢
  split at h
  next => exact absurd rfl h
  next hne => exact ⟨_, if_neg hne⟩

theorem Buffer.Inside.print_ended (h : (print capacity b text).Inside capacity)
    (hended : Ended capacity b ∨ cut (size (capacity - b.pos)) text ≠ []) :
    Ended capacity (print capacity b text) := by
  by_cases hnone : cut (size (capacity - b.pos)) text = []
  · obtain ⟨a, ha, hnul⟩ := hended.resolve_right fun hne => hne hnone
    refine ⟨a, ha, ?_⟩
    rw [mem_print, hnone, store_outside (by simp), hnul]
  · obtain ⟨out, hout⟩ := cut_last hnone
    have hlength : (cut (size (capacity - b.pos)) text).length = out.length + 1 := by
      rw [hout, List.length_append, List.length_singleton]
    have hlast :=
      h (b.pos, out.length + 1) (by rw [writes_print, hlength]; simp) out.length (Nat.lt_succ_self _)
    dsimp only at hlast
    refine ⟨(b.pos + out.length).toNat, by omega, ?_⟩
    rw [Int.toNat_of_nonneg hlast.1, mem_print, hout, store_inside (by simp),
      List.getElem_append_right (Nat.le_refl _)]
    simp

theorem printAll_cons (capacity : Nat) (b : Buffer) (text : Str) (texts : List Str) :
    printAll capacity b (text :: texts) = printAll capacity (print capacity b text) texts := rfl

theorem writes_printAll (capacity : Nat) (b : Buffer) (texts : List Str) :
    ∃ more, (printAll capacity b texts).writes = b.writes ++ more := by
  induction texts generalizing b with
  | nil => exact ⟨[], (List.append_nil _).symm⟩
  | cons text texts ih =>
    obtain ⟨more, hmore⟩ := ih (print capacity b text)
    exact ⟨_, by rw [printAll_cons, hmore, writes_print, List.append_assoc]⟩

theorem Buffer.Inside.earlier (h : (printAll capacity b texts).Inside capacity) : b.Inside capacity := by
  obtain ⟨more, hmore⟩ := writes_printAll capacity b texts
  intro w hw
  refine h w ?_
  rw [hmore]
  exact List.mem_append_left _ hw

theorem Buffer.Inside.printAll_ended (h : (printAll capacity b texts).Inside capacity)
    (hended : Ended capacity b) :
    Ended capacity (printAll capacity b texts) := by
  induction texts generalizing b with
  | nil => exact hended
  | cons text texts ih =>
    rw [printAll_cons] at h ⊢
    have hfirst : (print capacity b text).Inside capacity := h.earlier
    exact ih h (hfirst.print_ended (.inl hended))

theorem Holds.length_lt (h : Holds b.mem s) (hs : nul ∉ s) (hended : Ended capacity b) :
    s.length < capacity := by
  obtain ⟨a, ha, hnul⟩ := hended
  by_contra hge
  rw [h.1 a (by omega)] at hnul
  exact hs (hnul ▸ List.getElem_mem _)

/-- A buffer that is written from its start holds all of the texts, with nothing written outside,
exactly if they fit together with the byte that ends them. -/
theorem printAll_iff {texts : List Str} (hne : texts ≠ []) (hpositive : 0 < capacity)
    (hcapacity : capacity ≤ 2147483647)
    (hfree : nul ∉ texts.flatten) (mem : Mem) :
    ((printAll capacity ⟨mem, 0, []⟩ texts).Inside capacity ∧
        Holds (printAll capacity ⟨mem, 0, []⟩ texts).mem texts.flatten) ↔
        texts.flatten.length < capacity := by
  obtain ⟨text, texts, rfl⟩ := List.exists_cons_of_ne_nil hne
  have hsize : size ((capacity : Int) - 0) = capacity := by
    rw [Int.sub_zero, size_of_nonneg hcapacity]
  constructor
  · rintro ⟨hinside, hholds⟩
    rw [printAll_cons] at hinside hholds
    have hwritten : cut (size ((capacity : Int) - 0)) text ≠ [] := by
      rw [hsize, cut, if_neg (Nat.ne_of_gt hpositive)]
      exact List.append_ne_nil_of_right_ne_nil _ (List.cons_ne_nil _ _)
    have hfirst : (print capacity ⟨mem, 0, []⟩ text).Inside capacity := hinside.earlier
    exact hholds.length_lt hfree (hinside.printAll_ended (hfirst.print_ended (.inr hwritten)))
  · intro hfits
    rw [List.flatten_cons, List.length_append] at hfits
    have hstart : (0 : Int) = (([] : Str).length : Nat) := rfl
    have hnone : ∀ k (h : k < ([] : Str).length), mem k = ([] : Str)[k] :=
      fun k h => absurd h (Nat.not_lt_zero k)
    obtain ⟨hpos, hholds, hwrites⟩ :=
      @print_fits [] text capacity ⟨mem, 0, []⟩ hstart hcapacity (by simp; omega) hnone
    rw [printAll_cons, List.flatten_cons]
    refine printAll_fits hcapacity hfits hpos hholds fun w hw k hk => ?_
    rw [hwrites, List.nil_append, List.mem_singleton] at hw
    subst hw
    dsimp only [List.length_nil] at hk ⊢
    omega

end Store

end Snprintf
