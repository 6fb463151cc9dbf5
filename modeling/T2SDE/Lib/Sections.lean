import Mathlib.Data.List.Basic

namespace Sections

variable {α : Type}

/-- The elements in one section; an element that starts a section is marked with whether it is
this one. -/
def within (inside : Bool) : List (Option Bool × α) → List α
  | [] => []
  | (m, a) :: rows =>
    if m.getD inside then a :: within (m.getD inside) rows else within (m.getD inside) rows

def others (inside : Bool) : List (Option Bool × α) → List α
  | [] => []
  | (m, a) :: rows =>
    if m.getD inside then others (m.getD inside) rows else a :: others (m.getD inside) rows

/-- New elements stand where the section starts, or at the end without one. -/
def replaced (new : List α) (inside done : Bool) : List (Option Bool × α) → List α
  | [] => if done then [] else new
  | (m, a) :: rows =>
    if m.getD inside then (if done then [] else new) ++ replaced new true true rows
    else a :: replaced new false done rows

attribute [grind =] within others replaced

/-- Which elements stand in the section. -/
def flags (inside : Bool) : List (Option Bool) → List Bool
  | [] => []
  | m :: ms => m.getD inside :: flags (m.getD inside) ms

section Replaced

variable {inside done : Bool} {new : List α}

theorem replaced_done (rows : List (Option Bool × α)) (inside : Bool) :
    replaced new inside true rows = others inside rows := by
  induction rows generalizing inside with
  | nil => rfl
  | cons r rows ih =>
    obtain ⟨m, a⟩ := r
    rw [replaced, others]
    split
    next h => rw [if_pos rfl, List.nil_append, ih, h]
    next h =>
      rw [Bool.not_eq_true] at h
      rw [ih, h]

theorem replaced_nil (rows : List (Option Bool × α)) (inside done : Bool) :
    replaced [] inside done rows = others inside rows := by
  induction rows generalizing inside done with
  | nil =>
    rw [replaced, ite_self]
    rfl
  | cons r rows ih =>
    obtain ⟨m, a⟩ := r
    rw [replaced, others]
    split
    next h => rw [ite_self, List.nil_append, ih, h]
    next h =>
      rw [Bool.not_eq_true] at h
      rw [ih, h]

theorem mem_within {rows : List (Option Bool × α)} {a : α} (h : a ∈ within inside rows) :
    ∃ m, (m, a) ∈ rows := by
  induction rows generalizing inside with
  | nil => cases h
  | cons r rows ih =>
    obtain ⟨m, b⟩ := r
    rw [within] at h
    split at h
    · rcases List.mem_cons.mp h with rfl | h
      · exact ⟨m, List.mem_cons_self⟩
      · exact (ih h).imp fun _ hm => List.mem_cons_of_mem _ hm
    · exact (ih h).imp fun _ hm => List.mem_cons_of_mem _ hm

theorem mem_replaced {rows : List (Option Bool × α)} {a : α} (h : a ∈ replaced new inside done rows) :
    a ∈ new ∨ ∃ m, (m, a) ∈ rows := by
  induction rows generalizing inside done with
  | nil =>
    rw [replaced] at h
    split at h
    · cases h
    · exact .inl h
  | cons r rows ih =>
    obtain ⟨m, b⟩ := r
    rw [replaced] at h
    split at h
    · rcases List.mem_append.mp h with h | h
      · split at h
        · cases h
        · exact .inl h
      · exact (ih h).imp_right (Exists.imp fun _ hm => List.mem_cons_of_mem _ hm)
    · rcases List.mem_cons.mp h with rfl | h
      · exact .inr ⟨m, List.mem_cons_self⟩
      · exact (ih h).imp_right (Exists.imp fun _ hm => List.mem_cons_of_mem _ hm)

theorem within_map {β : Type} (f : α → β) (rows : List (Option Bool × α)) (inside : Bool) :
    within inside (rows.map fun r => (r.1, f r.2)) = (within inside rows).map f := by
  induction rows generalizing inside with
  | nil => rfl
  | cons r rows ih =>
    obtain ⟨m, a⟩ := r
    rw [List.map_cons, within, within, ih]
    split
    next => rfl
    next => rfl

/-- Elements that all start sections are counted among the others by their marks alone. -/
theorem countP_others {q : α → Bool} {rows : List (Option Bool × α)}
    (hq : ∀ r ∈ rows, q r.2 = true → r.1.isSome) (inside : Bool) :
    (others inside rows).countP q = rows.countP fun r => q r.2 && r.1 == some false := by
  induction rows generalizing inside with
  | nil => rfl
  | cons r rows ih =>
    obtain ⟨m, a⟩ := r
    rw [List.forall_mem_cons] at hq
    have hrest := ih hq.2
    cases hqa : q a with
    | false =>
      rw [List.countP_cons_of_neg (by simp [hqa]), others]
      split
      next => exact hrest _
      next => rw [List.countP_cons_of_neg (by simp [hqa]), hrest]
    | true =>
      obtain ⟨b, rfl⟩ := Option.isSome_iff_exists.mp (hq.1 hqa)
      cases b with
      | true =>
        rw [others, if_pos (by rfl), List.countP_cons_of_neg (by simp)]
        exact hrest _
      | false =>
        rw [others, if_neg (by simp), List.countP_cons_of_pos (by simp [hqa]),
          List.countP_cons_of_pos (by simp [hqa]),
          hrest]

end Replaced

section Marks

variable (mark : α → Option Bool)

def marked (xs : List α) : List (Option Bool × α) := xs.map fun x => (mark x, x)

theorem marked_cons (x : α) (xs : List α) : marked mark (x :: xs) = (mark x, x) :: marked mark xs := rfl

/-- The first element of a section that has not started starts it. -/
theorem head_within {xs : List α} {a : α} (h : (within false (marked mark xs)).head? = some a) :
    mark a = some true := by
  induction xs with
  | nil => cases h
  | cons x xs ih =>
    rw [marked_cons, within] at h
    split at h
    next hx =>
      rw [List.head?_cons, Option.some.injEq] at h
      subst h
      cases hmark : mark x with
      | none => rw [hmark] at hx; cases hx
      | some b => rw [hmark] at hx; exact congrArg some hx
    next hx =>
      rw [Bool.not_eq_true] at hx
      rw [hx] at h
      exact ih h

theorem within_eq_nil {xs : List α} (h : true ∉ flags false (xs.map mark)) :
    within false (marked mark xs) = [] ∧ others false (marked mark xs) = xs := by
  induction xs with
  | nil => exact ⟨rfl, rfl⟩
  | cons x xs ih =>
    rw [List.map_cons, flags, List.mem_cons, not_or] at h
    have hx : ((mark x).getD false) = false := by simpa using Ne.symm h.1
    rw [hx] at h
    obtain ⟨hwithin, hothers⟩ := ih h.2
    rw [marked_cons, within, others, hx, hwithin, hothers]
    exact ⟨rfl, rfl⟩

theorem within_ne_nil {xs : List α} (h : true ∈ flags false (xs.map mark)) :
    within false (marked mark xs) ≠ [] := by
  induction xs with
  | nil => cases h
  | cons x xs ih =>
    rw [marked_cons, within]
    split
    next => exact List.cons_ne_nil _ _
    next hx =>
      rw [Bool.not_eq_true] at hx
      rw [List.map_cons, flags, List.mem_cons, hx] at h
      rw [hx]
      exact ih (h.resolve_left (by simp))

/-- Taking the section to the front changes nothing where it stands there. -/
theorem within_others (xs : List α) (inside : Bool) :
    within inside (marked mark xs) ++ others inside (marked mark xs) = xs ↔
      ¬[false, true].Sublist (flags inside (xs.map mark)) := by
  induction xs generalizing inside with
  | nil => exact iff_of_true rfl fun h => by cases h
  | cons x xs ih =>
    rw [marked_cons, within, others, List.map_cons, flags]
    cases hx : (mark x).getD inside with
    | true =>
      have hskip : [false, true].Sublist (true :: flags true (xs.map mark)) ↔
          [false, true].Sublist (flags true (xs.map mark)) := by
        refine ⟨fun h => ?_, fun h => h.cons _⟩
        cases h with
        | cons _ h => exact h
      rw [if_pos rfl, if_pos rfl, List.cons_append, List.cons.injEq, hskip]
      exact (and_iff_right rfl).trans (ih true)
    | false =>
      rw [if_neg (by simp), if_neg (by simp), List.cons_sublist_cons, List.singleton_sublist]
      by_cases htrue : true ∈ flags false (xs.map mark)
      · refine iff_of_false (fun heq => ?_) fun h => h htrue
        obtain ⟨a, as, has⟩ := List.exists_cons_of_ne_nil (within_ne_nil mark htrue)
        have hstart := head_within mark (by rw [has]; rfl)
        rw [has, List.cons_append, List.cons.injEq] at heq
        rw [heq.1] at hstart
        rw [hstart] at hx
        cases hx
      · obtain ⟨hwithin, hothers⟩ := within_eq_nil mark htrue
        rw [hwithin, hothers]
        exact iff_of_true rfl htrue

/-- Writing a section where it starts changes nothing if it stands in one piece. -/
theorem replaced_within (xs : List α) :
    replaced (within false (marked mark xs)) false false (marked mark xs) = xs ↔
      ¬[true, false, true].Sublist (flags false (xs.map mark)) := by
  induction xs with
  | nil => exact iff_of_true rfl fun h => by cases h
  | cons x xs ih =>
    rw [marked_cons, within, replaced, List.map_cons, flags]
    cases hx : (mark x).getD false with
    | true =>
      rw [if_pos rfl, if_pos rfl, if_neg (by simp), replaced_done, List.cons_append, List.cons.injEq,
        List.cons_sublist_cons, ← within_others mark xs true]
      exact and_iff_right rfl
    | false =>
      have hskip : [true, false, true].Sublist (false :: flags false (xs.map mark)) ↔
          [true, false, true].Sublist (flags false (xs.map mark)) := by
        refine ⟨fun h => ?_, fun h => h.cons _⟩
        cases h with
        | cons _ h => exact h
      rw [if_neg (by simp), if_neg (by simp), List.cons.injEq, hskip]
      exact (and_iff_right rfl).trans ih

end Marks

theorem eq_of_countP {p q : α → Bool} {l : List α} (h : ∀ a ∈ l, p a = true → q a = true)
    (hcount : l.countP q = l.countP p) : ∀ a ∈ l, q a = p a := by
  induction l with
  | nil => exact fun _ ha => by cases ha
  | cons b l ih =>
    rw [List.forall_mem_cons] at h ⊢
    have hle := List.countP_mono_left h.2
    rw [List.countP_cons, List.countP_cons] at hcount
    cases hp : p b with
    | true =>
      rw [h.1 hp] at hcount ⊢
      rw [hp] at hcount
      exact ⟨rfl, ih h.2 (by omega)⟩
    | false =>
      cases hq : q b with
      | true =>
        rw [hp, hq, if_pos rfl, if_neg (by simp)] at hcount
        omega
      | false =>
        rw [hp, hq] at hcount
        exact ⟨rfl, ih h.2 (by omega)⟩

end Sections
