import Mathlib.Data.List.Sort
import T2SDE.Lib.Text

namespace StableSort

open Text List

section Pairs

variable {α : Type} {a b : α} {l : List α}

/-- In a list without repetitions two elements stand in one order only. -/
theorem pair_sublist_asymm (hl : l.Nodup) (hab : [a, b] <+ l) : ¬[b, a] <+ l := by
  intro hba
  induction l with
  | nil => simp at hab
  | cons c l ih =>
    obtain ⟨hc, hl⟩ := nodup_cons.mp hl
    rcases sublist_cons_iff.mp hab with hab' | ⟨r, hr, hab'⟩
    · rcases sublist_cons_iff.mp hba with hba' | ⟨r, hr, -⟩
      · exact ih hl hab' hba'
      · obtain ⟨rfl, -⟩ := cons.inj hr
        exact hc (hab'.subset (by simp))
    · obtain ⟨rfl, rfl⟩ := cons.inj hr
      rcases sublist_cons_iff.mp hba with hba' | ⟨r, hr, -⟩
      · exact hc (hba'.subset (by simp))
      · obtain ⟨rfl, -⟩ := cons.inj hr
        exact hc (hab'.subset (by simp))

theorem pair_sublist_total (ha : a ∈ l) (hb : b ∈ l) (hne : a ≠ b) : [a, b] <+ l ∨ [b, a] <+ l := by
  induction l with
  | nil => cases ha
  | cons c l ih =>
    rcases mem_cons.mp ha with rfl | ha'
    · have hb' : b ∈ l := (mem_cons.mp hb).resolve_left hne.symm
      exact .inl ((singleton_sublist.mpr hb').cons_cons a)
    · rcases mem_cons.mp hb with rfl | hb'
      · exact .inr ((singleton_sublist.mpr ha').cons_cons b)
      · exact (ih ha' hb').imp (Sublist.cons c) (Sublist.cons c)

end Pairs

section Refine

variable {α : Type} {r s : α → α → Prop} [DecidableRel r] [DecidableRel s] [Std.Total r] [IsTrans α r]
  [Std.Total s] [IsTrans α s] {l : List α}

/-- A finer order sorts as the stable sort of the coarser one, if it orders the elements that the coarser one
does not tell apart as the list does. -/
theorem insertionSort_eq_iff (hfiner : ∀ a b, s a b → r a b)
    (hanti : ∀ a b, a ∈ l → b ∈ l → s a b → s b a → a = b)
    (hl : l.Nodup) : l.insertionSort s = l.insertionSort r ↔ l.Pairwise fun a b => r a b → r b a → s a b := by
  have hnodup : (l.insertionSort r).Nodup := (perm_insertionSort r l).nodup_iff.mpr hl
  constructor
  · intro heq
    refine pairwise_iff_forall_sublist.mpr fun {a b} hab hr _ => ?_
    have hsub := pair_sublist_insertionSort hr hab
    rw [← heq] at hsub
    exact pairwise_iff_forall_sublist.mp (pairwise_insertionSort s l) hsub
  · intro h
    have hsorted : (l.insertionSort r).Pairwise s := by
      refine pairwise_iff_forall_sublist.mpr fun {a b} hab => ?_
      have hr : r a b := pairwise_iff_forall_sublist.mp (pairwise_insertionSort r l) hab
      have ha : a ∈ l := (mem_insertionSort r).mp (hab.subset (by simp))
      have hb : b ∈ l := (mem_insertionSort r).mp (hab.subset (by simp))
      have hne : a ≠ b := by
        rintro rfl
        simpa using hnodup.sublist hab
      rcases total_of s a b with hs | hs
      · exact hs
      · have hr' := hfiner b a hs
        rcases pair_sublist_total ha hb hne with hsub | hsub
        · exact pairwise_iff_forall_sublist.mp h hsub hr hr'
        · exact absurd (pair_sublist_insertionSort hr' hsub) (pair_sublist_asymm hnodup hab)
    refine Perm.eq_of_pairwise ?_ (pairwise_insertionSort s l) hsorted ?_
    · intro a b ha hb
      exact hanti a b ((mem_insertionSort s).mp ha) ((mem_insertionSort r).mp hb)
    · exact (perm_insertionSort s l).trans (perm_insertionSort r l).symm

/-- A list sorted by an order is in another one just if each element that has to stand in front of another one
stands there in the first. -/
theorem pairwise_insertionSort_iff {p : α → α → Prop}
    (hanti : ∀ a b, a ∈ l → b ∈ l → s a b → s b a → a = b) (hl : l.Nodup) :
    (l.insertionSort s).Pairwise p ↔ ∀ a ∈ l, ∀ b ∈ l, a ≠ b → ¬p b a → s a b := by
  have hsorted : ∀ {a b : α}, [a, b] <+ l.insertionSort s → s a b :=
    pairwise_iff_forall_sublist.mp (pairwise_insertionSort s l)
  constructor
  · intro hp a ha b hb hne hba
    rcases pair_sublist_total ((mem_insertionSort s).mpr ha)
      ((mem_insertionSort s).mpr hb) hne with hsub | hsub
    · exact hsorted hsub
    · exact absurd (pairwise_iff_forall_sublist.mp hp hsub) hba
  · intro h
    refine pairwise_iff_forall_sublist.mpr fun {a b} hab => ?_
    have ha : a ∈ l := (mem_insertionSort s).mp (hab.subset (by simp))
    have hb : b ∈ l := (mem_insertionSort s).mp (hab.subset (by simp))
    have hne : a ≠ b := by
      rintro rfl
      simpa using ((perm_insertionSort s l).nodup_iff.mpr hl).sublist hab
    by_contra hp
    exact hne (hanti a b ha hb (hsorted hab) (h b hb a ha hne.symm hp))

end Refine

section Texts

variable {a b c : Str}

/-- The order of texts by their characters. -/
def textLe : Str → Str → Bool
  | [], _ => true
  | _ :: _, [] => false
  | c :: a, d :: b => c.toNat < d.toNat || c == d && textLe a b

attribute [grind =] textLe

theorem textLe_total (a b : Str) : textLe a b = true ∨ textLe b a = true := by
  induction a generalizing b with
  | nil => exact .inl (by cases b <;> rfl)
  | cons c a ih =>
    cases b with
    | nil => exact .inr rfl
    | cons d b =>
      simp only [textLe, Bool.or_eq_true, decide_eq_true_eq, Bool.and_eq_true, beq_iff_eq]
      rcases Nat.lt_trichotomy c.toNat d.toNat with h | h | h
      · exact .inl (.inl h)
      · have hcd : c = d := Char.toNat_inj.mp h
        rcases ih b with h | h
        · exact .inl (.inr ⟨hcd, h⟩)
        · exact .inr (.inr ⟨hcd.symm, h⟩)
      · exact .inr (.inl h)

theorem textLe_antisymm (hab : textLe a b = true) (hba : textLe b a = true) : a = b := by
  induction a generalizing b with
  | nil =>
    cases b with
    | nil => rfl
    | cons d b => cases hba
  | cons c a ih =>
    cases b with
    | nil => cases hab
    | cons d b =>
      simp only [textLe, Bool.or_eq_true, decide_eq_true_eq, Bool.and_eq_true, beq_iff_eq] at hab hba
      rcases hab with hlt | ⟨rfl, hab⟩
      · rcases hba with hgt | ⟨rfl, -⟩
        · omega
        · omega
      · rcases hba with hgt | ⟨-, hba⟩
        · omega
        · rw [ih hab hba]

theorem textLe_trans (hab : textLe a b = true) (hbc : textLe b c = true) : textLe a c = true := by
  induction a generalizing b c with
  | nil => cases c <;> rfl
  | cons x a ih =>
    cases b with
    | nil => cases hab
    | cons y b =>
      cases c with
      | nil => cases hbc
      | cons z c =>
        simp only [textLe, Bool.or_eq_true, decide_eq_true_eq, Bool.and_eq_true, beq_iff_eq] at hab hbc ⊢
        rcases hab with hlt | ⟨rfl, hab⟩
        · rcases hbc with hlt' | ⟨rfl, -⟩
          · exact .inl (hlt.trans hlt')
          · exact .inl hlt
        · rcases hbc with hlt' | ⟨rfl, hbc⟩
          · exact .inl hlt'
          · exact .inr ⟨rfl, ih hab hbc⟩

theorem textLe_refl (a : Str) : textLe a a = true := (textLe_total a a).elim id id

theorem textLe_isPrefix (a s : Str) : textLe a (a ++ s) = true := by
  induction a with
  | nil => cases s <;> rfl
  | cons c a ih => simp [textLe, ih]

/-- Texts of one length are in the order of their heads, if these are different. -/
theorem textLe_append (hlen : a.length = b.length) (hne : a ≠ b) (s t : Str) :
    textLe (a ++ s) (b ++ t) = textLe a b := by
  induction a generalizing b with
  | nil => exact absurd (List.length_eq_zero_iff.mp hlen.symm).symm hne
  | cons c a ih =>
    cases b with
    | nil => cases hlen
    | cons d b =>
      rw [List.cons_append, List.cons_append, textLe, textLe]
      by_cases hcd : c = d
      · have htail : a ≠ b := fun h => hne (by rw [hcd, h])
        rw [ih (Nat.succ.inj hlen) htail]
      · rw [beq_eq_false_iff_ne.mpr hcd, Bool.false_and, Bool.false_and]

theorem textLe_append_left (u s t : Str) : textLe (u ++ s) (u ++ t) = textLe s t := by
  induction u with
  | nil => rfl
  | cons c u ih =>
    rw [List.cons_append, List.cons_append, textLe, ih]
    simp

/-- A separator below all the characters of two texts leaves their order as it is. -/
theorem textLe_sep {d : Char} (ha : ∀ c ∈ a, d.toNat < c.toNat) (hb : ∀ c ∈ b, d.toNat < c.toNat)
    (hne : a ≠ b)
    (s t : Str) : textLe (a ++ d :: s) (b ++ d :: t) = textLe a b := by
  induction a generalizing b with
  | nil =>
    cases b with
    | nil => exact absurd rfl hne
    | cons e b => simp [textLe, hb e List.mem_cons_self]
  | cons c a ih =>
    have hc := ha c List.mem_cons_self
    cases b with
    | nil =>
      have hcd : c ≠ d := by
        rintro rfl
        exact Nat.lt_irrefl _ hc
      simp [textLe, Nat.not_lt.mpr (Nat.le_of_lt hc), hcd]
    | cons e b =>
      rw [List.cons_append, List.cons_append, textLe, textLe]
      by_cases hce : c = e
      · have htail : a ≠ b := fun h => hne (by rw [hce, h])
        rw [ih (fun x hx => ha x (List.mem_cons_of_mem c hx)) (fun x hx =>
          hb x (List.mem_cons_of_mem e hx)) htail]
      · rw [beq_eq_false_iff_ne.mpr hce, Bool.false_and, Bool.false_and]

/-- Digits in the order of texts are in the order of their numbers, if there are as many. -/
theorem value_le_of_textLe (ha : ∀ c ∈ a, c.isDigit = true) (hb : ∀ c ∈ b, c.isDigit = true)
    (hlen : a.length = b.length) {m n : Nat} (h : m < n ∨ m = n ∧ textLe a b = true) :
    Nat.ofDigitChars 10 a m ≤ Nat.ofDigitChars 10 b n := by
  induction a generalizing b m n with
  | nil =>
    rw [List.length_eq_zero_iff.mp hlen.symm, Nat.ofDigitChars_nil, Nat.ofDigitChars_nil]
    omega
  | cons c a ih =>
    cases b with
    | nil => cases hlen
    | cons d b =>
      rw [Nat.ofDigitChars_cons, Nat.ofDigitChars_cons]
      refine ih (fun x hx => ha x (List.mem_cons_of_mem c hx)) (fun x hx => hb x (List.mem_cons_of_mem d hx))
        (Nat.succ.inj hlen) ?_
      have hc := Char.isDigit_iff_toNat.mp (ha c List.mem_cons_self)
      have hd := Char.isDigit_iff_toNat.mp (hb d List.mem_cons_self)
      have hzero : '0'.toNat = 48 := rfl
      have hnine : '9'.toNat = 57 := rfl
      rw [hzero, hnine] at hc hd
      rw [hzero]
      rcases h with hlt | ⟨rfl, hle⟩
      · exact .inl (by omega)
      · simp only [textLe, Bool.or_eq_true, decide_eq_true_eq, Bool.and_eq_true, beq_iff_eq] at hle
        rcases hle with hlt | ⟨rfl, hle⟩
        · exact .inl (by omega)
        · exact .inr ⟨rfl, hle⟩

/-- The order in which `sort` puts lines. -/
def LineLe (a b : Str) : Prop := textLe a b = true

instance : DecidableRel LineLe := fun a b => inferInstanceAs (Decidable (textLe a b = true))

instance : Std.Total LineLe := ⟨textLe_total⟩

instance : IsTrans Str LineLe := ⟨fun _ _ _ => textLe_trans⟩

instance : Std.Antisymm LineLe := ⟨fun _ _ => textLe_antisymm⟩

end Texts

end StableSort
