import Mathlib.Tactic.IntervalCases
import T2SDE.Lib.StableSort
import T2SDE.VarRegex

namespace T2SDE.ShellHooks

open Text StableSort

section Functions

/-- A call of `hook_add`, with a priority of one digit. -/
structure Call where
  hook : Str
  pri : Nat
  single : pri < 10
  code : Str

structure Hooks where
  functions : Nat → Str
  hookidx : Str → List Str
  fcounter : Nat

def start : Hooks := ⟨fun _ => [], fun _ => [], 0⟩

def hookAdd (s : Hooks) (c : Call) : Hooks where
  functions := Function.update s.functions s.fcounter c.code
  hookidx := Function.update s.hookidx c.hook (s.hookidx c.hook ++ [digits c.pri ++ ' ' :: digits s.fcounter])
  fcounter := s.fcounter + 1

/-- `read pri fnr` -/
def readLine (line : Str) : Str × Str :=
  match tokens Awk.blank line with
  | [] => ([], [])
  | pri :: rest => (pri, [' '].intercalate rest)

/-- `hook_eval`: the numbers of the fragments that it executes, with their texts. -/
def hookEval (s : Hooks) (hook : Str) : List (Nat × Str) :=
  ((fileLines (echo (joined '\n' (s.hookidx hook)))).insertionSort LineLe).filterMap fun line =>
    let fnr := Nat.ofDigitChars 10 (readLine line).2 0
    if (readLine line).1 ≠ [] then some (fnr, s.functions fnr) else none

end Functions

section Order

variable {hook : Str} {calls : List Call} {e f : Call × Nat}

/-- The calls for a hook, with their numbers among all calls. -/
def added (hook : Str) (calls : List Call) : List (Call × Nat) := calls.zipIdx.filter fun e => e.1.hook = hook

def line (e : Call × Nat) : Str := digits e.1.pri ++ ' ' :: digits e.2

/-- The order of the lines in the list of a hook. -/
def TextOrder (e f : Call × Nat) : Prop := LineLe (line e) (line f)

def PriOrder (e f : Call × Nat) : Prop := e.1.pri ≤ f.1.pri

instance : DecidableRel TextOrder := fun e f => inferInstanceAs (Decidable (LineLe (line e) (line f)))

instance : DecidableRel PriOrder := fun e f => inferInstanceAs (Decidable (e.1.pri ≤ f.1.pri))

instance : Std.Total TextOrder := ⟨fun e f => textLe_total (line e) (line f)⟩

instance : IsTrans (Call × Nat) TextOrder := ⟨fun _ _ _ => textLe_trans⟩

instance : Std.Total PriOrder := ⟨fun e f => Nat.le_total e.1.pri f.1.pri⟩

instance : IsTrans (Call × Nat) PriOrder := ⟨fun _ _ _ => Nat.le_trans⟩

/-- The fragments of a hook by priority, and in the order of their calls where the priorities are the same. -/
def inOrder (hook : Str) (calls : List Call) : List (Nat × Str) :=
  ((added hook calls).insertionSort PriOrder).map fun e => (e.2, e.1.code)

theorem mem_added (h : e ∈ added hook calls) : calls[e.2]? = some e.1 ∧ e.1.hook = hook := by
  obtain ⟨hmem, hhook⟩ := List.mem_filter.mp h
  exact ⟨List.mem_zipIdx_iff_getElem?.mp hmem, by simpa using hhook⟩

theorem eq_of_number (he : e ∈ added hook calls) (hf : f ∈ added hook calls) (h : e.2 = f.2) : e = f := by
  have heq := (mem_added he).1.symm.trans (h ▸ (mem_added hf).1)
  exact Prod.ext (Option.some.inj heq) h

theorem pairwise_added (hook : Str) (calls : List Call) :
    (added hook calls).Pairwise fun e f => e.2 < f.2 := by
  refine List.Pairwise.filter _ (List.pairwise_iff_getElem.mpr fun i j hi hj hij => ?_)
  simpa using hij

theorem nodup_added (hook : Str) (calls : List Call) : (added hook calls).Nodup := by
  refine (pairwise_added hook calls).imp ?_
  rintro e f hlt rfl
  exact Nat.lt_irrefl _ hlt

theorem digits_single {n : Nat} (h : n < 10) : digits n = [n.digitChar] := Nat.toDigits_of_lt_base h

theorem toNat_digitChar {n : Nat} (h : n < 10) : n.digitChar.toNat = n + 48 := by
  interval_cases n <;> rfl

/-- Lines are in order by their priorities, and where these are the same by their numbers as texts. -/
theorem textOrder_iff (e f : Call × Nat) :
    TextOrder e f ↔ e.1.pri < f.1.pri ∨ e.1.pri = f.1.pri ∧ textLe (digits e.2) (digits f.2) = true := by
  have he := toNat_digitChar e.1.single
  have hf := toNat_digitChar f.1.single
  have hsame : e.1.pri.digitChar = f.1.pri.digitChar ↔ e.1.pri = f.1.pri := by
    rw [← Char.toNat_inj, he, hf, Nat.add_right_cancel_iff]
  rw [TextOrder, LineLe, line, line, digits_single e.1.single, digits_single f.1.single]
  simp only [List.singleton_append, textLe, he, hf, Bool.or_eq_true, decide_eq_true_eq, Bool.and_eq_true,
    beq_iff_eq,
    hsame, Nat.add_lt_add_iff_right, Nat.lt_irrefl, true_and, false_or]

/-- The textual sort is the order of the priorities and the calls just if the numbers of one priority are in
order as texts. -/
theorem sorted_iff (hook : Str) (calls : List Call) :
    (added hook calls).insertionSort TextOrder = (added hook calls).insertionSort PriOrder ↔
      ∀ e ∈ added hook calls, ∀ f ∈ added hook calls, e.2 < f.2 → e.1.pri = f.1.pri →
        textLe (digits e.2) (digits f.2) = true := by
  have hfiner : ∀ e f, TextOrder e f → PriOrder e f := by
    intro e f h
    rcases (textOrder_iff e f).mp h with hlt | ⟨heq, -⟩
    · exact Nat.le_of_lt hlt
    · exact Nat.le_of_eq heq
  have hanti : ∀ e f, e ∈ added hook calls → f ∈ added hook calls → TextOrder e f → TextOrder f e →
    e = f := by
    intro e f he hf hef hfe
    rcases (textOrder_iff e f).mp hef with hlt | ⟨heq, hle⟩
    · exact absurd (hfiner f e hfe) (Nat.not_le.mpr hlt)
    · rcases (textOrder_iff f e).mp hfe with hgt | ⟨-, hge⟩
      · exact absurd (hfiner e f hef) (Nat.not_le.mpr hgt)
      · exact eq_of_number he hf (digits_inj (textLe_antisymm hle hge))
  rw [insertionSort_eq_iff hfiner hanti (nodup_added hook calls), List.pairwise_iff_forall_sublist]
  constructor
  · intro h e he f hf hlt hpri
    have hne : e ≠ f := by
      rintro rfl
      exact Nat.lt_irrefl _ hlt
    rcases pair_sublist_total he hf hne with hsub | hsub
    · have htext := h hsub (Nat.le_of_eq hpri) (Nat.le_of_eq hpri.symm)
      rcases (textOrder_iff e f).mp htext with hlt' | ⟨-, hle⟩
      · exact absurd hpri (Nat.ne_of_lt hlt')
      · exact hle
    · have hgt := List.pairwise_iff_forall_sublist.mp (pairwise_added hook calls) hsub
      exact absurd hlt (Nat.lt_asymm hgt)
  · intro h e f hsub hef hfe
    have he : e ∈ added hook calls := hsub.subset (by simp)
    have hf : f ∈ added hook calls := hsub.subset (by simp)
    have hpri : e.1.pri = f.1.pri := Nat.le_antisymm hef hfe
    have hlt := List.pairwise_iff_forall_sublist.mp (pairwise_added hook calls) hsub
    exact (textOrder_iff e f).mpr (.inr ⟨hpri, h e he f hf hlt hpri⟩)

end Order

section Eval

variable {hook : Str} {calls : List Call} {l : List Str}

/-- What `hook_add` has stored after some calls. -/
theorem foldl_hookAdd (calls : List Call) :
    (calls.foldl hookAdd start).fcounter = calls.length ∧
    (∀ hook, (calls.foldl hookAdd start).hookidx hook = (added hook calls).map line) ∧
    ∀ i c, calls[i]? = some c → (calls.foldl hookAdd start).functions i = c.code := by
  induction calls using List.reverseRecOn with
  | nil => exact ⟨rfl, fun _ => rfl, by simp⟩
  | append_singleton calls c ih =>
    obtain ⟨hcount, hidx, hfun⟩ := ih
    rw [List.foldl_append, List.foldl_cons, List.foldl_nil]
    refine ⟨by simp [hookAdd, hcount], fun hook => ?_, fun i d hd => ?_⟩
    · rw [hookAdd, hcount]
      by_cases hhook : c.hook = hook
      · subst hhook
        simp [hidx, added, List.zipIdx_append, line]
      · simp [hidx, added, List.zipIdx_append, hhook, Function.update_of_ne (Ne.symm hhook)]
    · rw [hookAdd, hcount]
      by_cases hi : i = calls.length
      · subst hi
        rw [List.getElem?_append_right (Nat.le_refl _), Nat.sub_self] at hd
        cases hd
        exact Function.update_self ..
      · have hlt : i < calls.length := by
          have hlen := (List.getElem?_eq_some_iff.mp hd).1
          rw [List.length_append, List.length_singleton] at hlen
          omega
        rw [List.getElem?_append_left hlt] at hd
        exact (Function.update_of_ne hi _ _).trans (hfun i d hd)

theorem fileLines_joined (hl : ∀ x ∈ l, '\n' ∉ x) (hne : l ≠ []) :
    fileLines (joined '\n' l ++ ['\n']) = l := by
  obtain ⟨x, l, rfl⟩ := List.exists_cons_of_ne_nil hne
  clear hne
  induction l generalizing x with
  | nil =>
    rw [joined_singleton, fileLines_line (hl x List.mem_cons_self)]
    rfl
  | cons y l ih =>
    rw [joined_cons_cons, List.append_assoc, List.cons_append, fileLines_line (hl x List.mem_cons_self),
      ih y fun z hz => hl z (List.mem_cons_of_mem x hz)]

theorem line_free (e : Call × Nat) : '\n' ∉ line e := by
  intro h
  rcases List.mem_append.mp h with h | h
  · exact absurd (digit_of_mem h) (by decide)
  · rcases List.mem_cons.mp h with h | h
    · exact absurd h (by decide)
    · exact absurd (digit_of_mem h) (by decide)

theorem blank_digits {c : Char} {n : Nat} (h : c ∈ digits n) : Awk.blank c = false := by
  have hdigit := digit_of_mem h
  rw [Awk.blank]
  by_contra hblank
  simp only [Bool.not_eq_false, Bool.or_eq_true, beq_iff_eq] at hblank
  rcases hblank with (rfl | rfl) | rfl <;> exact absurd hdigit (by decide)

theorem readLine_line (e : Call × Nat) : readLine (line e) = (digits e.1.pri, digits e.2) := by
  have htok : tokens Awk.blank (line e) = [digits e.1.pri, digits e.2] := by
    rw [line, tokens_append_sep (by decide), tokens_word (digits_ne_nil _) fun c => blank_digits,
      tokens_word (digits_ne_nil _) fun c => blank_digits]
    rfl
  rw [readLine, htok]
  simp [List.intercalate]

theorem joined_lines_option (l : List (Call × Nat)) : isEchoOption (joined '\n' (l.map line)) = false := by
  by_contra h
  rw [Bool.not_eq_false] at h
  have hhead : (joined '\n' (l.map line)).head? = some '-' := by
    unfold isEchoOption at h
    split at h
    next heq => rw [heq]; rfl
    next => cases h
  cases l with
  | nil => cases hhead
  | cons e l =>
    obtain ⟨c, w, hc⟩ := List.exists_cons_of_ne_nil (digits_ne_nil e.1.pri)
    have hfirst : (joined '\n' ((e :: l).map line)).head? = some c := by
      cases l with
      | nil => rw [List.map_cons, List.map_nil, joined_singleton, line, hc]; rfl
      | cons f l => rw [List.map_cons, List.map_cons, joined_cons_cons, line, hc]; rfl
    have hdigit : c ∈ digits e.1.pri := hc ▸ List.mem_cons_self
    rw [Option.some.inj (hfirst.symm.trans hhead)] at hdigit
    exact absurd (digit_of_mem hdigit) (by decide)

/-- `hook_eval` executes the fragments of the hook in the order of its lines. -/
theorem hookEval_eq (hook : Str) (calls : List Call) :
    hookEval (calls.foldl hookAdd start) hook =
      ((added hook calls).insertionSort TextOrder).map fun e => (e.2, e.1.code) := by
  obtain ⟨-, hidx, hfun⟩ := foldl_hookAdd calls
  rw [hookEval, hidx hook, echo, joined_lines_option, if_neg Bool.false_ne_true]
  by_cases hnone : added hook calls = []
  · have hempty : fileLines (joined '\n' (List.map line []) ++ ['\n']) = [[]] := by decide
    rw [hnone, hempty]
    rfl
  · have hsort : ((added hook calls).map line).insertionSort LineLe =
      ((added hook calls).insertionSort TextOrder).map line :=
      (List.map_insertionSort TextOrder LineLe line _ fun _ _ _ _ => Iff.rfl).symm
    have hfree : ∀ x ∈ (added hook calls).map line, '\n' ∉ x := by
      intro x hx
      obtain ⟨e, -, rfl⟩ := List.mem_map.mp hx
      exact line_free e
    rw [fileLines_joined hfree (by simpa using hnone), hsort, List.filterMap_map, ← List.filterMap_eq_map]
    refine List.filterMap_congr fun e he => ?_
    have hcode := hfun e.2 e.1 (mem_added ((List.mem_insertionSort TextOrder).mp he)).1
    simp only [Function.comp_apply, readLine_line, digits_value, hcode]
    exact if_pos (digits_ne_nil _)

theorem eq_of_map_eq {α β : Type} {f : α → β} {l m : List α} (h : ∀ a ∈ l, ∀ b ∈ m, f a = f b → a = b)
    (heq : l.map f = m.map f) : l = m := by
  induction l generalizing m with
  | nil => exact (List.map_eq_nil_iff.mp heq.symm).symm
  | cons a l ih =>
    cases m with
    | nil => cases heq
    | cons b m =>
      obtain ⟨hhead, htail⟩ := List.cons.inj heq
      rw [h a List.mem_cons_self b List.mem_cons_self hhead,
        ih (fun x hx y hy => h x (List.mem_cons_of_mem a hx) y (List.mem_cons_of_mem b hy)) htail]

/-- `hook_eval` executes the fragments in the order of their priorities and calls just if the
numbers of those with the same priority are in order as texts. -/
theorem hookEval_inOrder_iff (calls : List Call) (hook : Str) :
    hookEval (calls.foldl hookAdd start) hook = inOrder hook calls ↔
      ∀ e ∈ added hook calls, ∀ f ∈ added hook calls, e.2 < f.2 → e.1.pri = f.1.pri →
        textLe (digits e.2) (digits f.2) = true := by
  rw [hookEval_eq, inOrder, ← sorted_iff]
  constructor
  · refine eq_of_map_eq fun e he f hf hef => ?_
    exact eq_of_number ((List.mem_insertionSort TextOrder).mp he) ((List.mem_insertionSort PriOrder).mp hf)
      (Prod.mk.inj hef).1
  · intro heq
    rw [heq]

/-- Eleven fragments with the priority 5: the last is executed behind the second. -/
theorem hookEval_eleventh : ¬∀ (calls : List Call) (hook : Str),
    hookEval (calls.foldl hookAdd start) hook = inOrder hook calls := by
  intro h
  have heq := h ((List.range 11).map fun i => ⟨['h'], 5, by decide, digits i⟩) ['h']
  exact absurd heq (by decide +kernel)

end Eval

end T2SDE.ShellHooks
