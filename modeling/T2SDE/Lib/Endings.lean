import Mathlib.Data.List.Nodup
import Mathlib.Logic.Basic
import T2SDE.Lib.Text

namespace Endings

open Text

/-- The pattern of a `case` that asks for an ending. -/
def endsWith (f suffix : Str) : Bool := suffix.isSuffixOf f

/-- An ending replaced, as `s,ending$,new,` does it. -/
def replaceEnd (suffix new f : Str) : Str :=
  if endsWith f suffix then f.take (f.length - suffix.length) ++ new else f

/-- What a table has for a name: the value of the first ending that fits. -/
def ofEnds {α : Type} (table : List (Str × α)) (other : α) (f : Str) : α :=
  ((table.find? fun p => endsWith f p.1).map Prod.snd).getD other

/-- No ending of the list ends another one. -/
def Unrelated (known : List Str) : Bool := known.all fun a => known.all fun b => a == b || !a.isSuffixOf b

section Names

variable {f stem suffix other new : Str}

theorem endsWith_iff : endsWith f suffix = true ↔ suffix <:+ f := List.isSuffixOf_iff_suffix

@[simp] theorem endsWith_append (stem suffix : Str) : endsWith (stem ++ suffix) suffix = true :=
  endsWith_iff.mpr (List.suffix_append _ _)

/-- A name with one ending has no other one that does not overlap it. -/
theorem endsWith_other (h : endsWith f suffix = true) (hne : ¬suffix <:+ other) (hne' : ¬other <:+ suffix) :
    endsWith f other = false := by
  by_contra hother
  rw [Bool.not_eq_false] at hother
  rcases List.suffix_or_suffix_of_suffix (endsWith_iff.mp h) (endsWith_iff.mp hother) with h | h
  · exact hne h
  · exact hne' h

theorem replaceEnd_append (suffix new stem : Str) : replaceEnd suffix new (stem ++ suffix) = stem ++ new := by
  simp [replaceEnd]

theorem replaceEnd_of_not (h : endsWith f suffix = false) : replaceEnd suffix new f = f := by
  simp [replaceEnd, h]

theorem endsWith_replaceEnd (h : endsWith f suffix = true) :
    endsWith (replaceEnd suffix new f) new = true := by
  obtain ⟨stem, rfl⟩ := endsWith_iff.mp h
  rw [replaceEnd_append]
  exact endsWith_append stem new

theorem replaceEnd_length {n : Nat} (h : new.length ≤ suffix.length + n) (f : Str) :
    (replaceEnd suffix new f).length ≤ f.length + n := by
  unfold replaceEnd
  split_ifs with hend
  · have := (endsWith_iff.mp hend).length_le
    simp only [List.length_append, List.length_take]
    omega
  · omega

end Names

section Tables

variable {α : Type} {table : List (Str × α)} {known : List Str} {p : Str × α} {other a : α} {f e x : Str}

@[simp] theorem ofEnds_nil : ofEnds [] other f = other := rfl

@[simp] theorem ofEnds_cons :
    ofEnds ((e, a) :: table) other f = if endsWith f e then a else ofEnds table other f := by
  rw [ofEnds, List.find?_cons]
  cases endsWith f e <;> rfl

/-- A name has at most one of some unrelated endings. -/
theorem endsWith_unique (hknown : Unrelated known = true) (h : endsWith f e = true) (he : e ∈ known)
    (hx : x ∈ known) (hne : e ≠ x) : endsWith f x = false := by
  have hsuffix {a b : Str} (ha : a ∈ known) (hb : b ∈ known) (hne : a ≠ b) : ¬a <:+ b := by
    have hab := List.all_eq_true.mp (List.all_eq_true.mp hknown a ha) b hb
    rw [← List.isSuffixOf_iff_suffix, Bool.not_eq_true]
    simpa [hne] using hab
  exact endsWith_other h (hsuffix he hx hne) (hsuffix hx he hne.symm)

/-- In a table of unrelated endings the one that a name has is the one that is found. -/
theorem find_ends (hknown : Unrelated known = true) (hkeys : (table.map Prod.fst).Nodup)
    (hsub : ∀ q ∈ table, q.1 ∈ known) (hp : p ∈ table) (h : endsWith f p.1 = true) :
    (table.find? fun q => endsWith f q.1) = some p := by
  cases hfind : table.find? fun q => endsWith f q.1 with
  | none => simpa [h] using List.find?_eq_none.mp hfind p hp
  | some q =>
    have hq := List.mem_of_find?_eq_some hfind
    have hends : endsWith f q.1 = true := by simpa using List.find?_some hfind
    have hkey : q.1 = p.1 := by
      by_contra hne
      rw [endsWith_unique hknown hends (hsub q hq) (hsub p hp) hne] at h
      cases h
    rw [List.inj_on_of_nodup_map hkeys hq hp hkey]

theorem find_ends_none (h : ∀ p ∈ table, endsWith f p.1 = false) :
    (table.find? fun q => endsWith f q.1) = none :=
  List.find?_eq_none.mpr fun p hp => by simp [h p hp]

theorem ofEnds_of_ends (hknown : Unrelated known = true) (hkeys : (table.map Prod.fst).Nodup)
    (hsub : ∀ q ∈ table, q.1 ∈ known) (hp : (e, a) ∈ table) (h : endsWith f e = true) :
    ofEnds table other f = a := by
  rw [ofEnds, find_ends hknown hkeys hsub hp h]
  rfl

theorem ofEnds_of_none (h : ∀ p ∈ table, endsWith f p.1 = false) : ofEnds table other f = other := by
  rw [ofEnds, find_ends_none h]
  rfl

end Tables

end Endings
