import T2SDE.CmdWrapper
import Mathlib.Data.List.TakeWhile

namespace T2SDE

open Text CString

/-- The value of an item: `cond?lhs:rhs` is decided on the whole command line. -/
def evalItem (w : CmdWrapper) (argv : List Str) (item : Str) : Str :=
  if '?' ∈ item then
    let cond := item.takeWhile (· != '?')
    let sides := (item.dropWhile (· != '?')).tail
    if argv.any (w.fnmatch cond) then sides.takeWhile (· != ':')
    else (sides.dropWhile (· != ':')).tail
  else item

def items (s : Str) : List Str := tokens (· == ' ') s

def itemValues (w : CmdWrapper) (argv : List Str) (s : Str) : List Str :=
  ((items s).map (evalItem w argv)).filter (· != [])

theorem item_cases (item : Str) :
    '?' ∉ item ∨ ∃ cond sides, item = cond ++ '?' :: sides ∧ '?' ∉ cond := by
  by_cases h : '?' ∈ item
  · obtain ⟨cond, sides, hs, hc⟩ := List.eq_append_cons_of_mem h
    exact .inr ⟨cond, sides, hs, hc⟩
  · exact .inl h

theorem before_of {d : Char} {a b : Str} (h : d ∉ a) : (a ++ d :: b).takeWhile (· != d) = a := by
  apply takeWhile_stop
  · intro x hx
    simpa using fun e : x = d => h (e ▸ hx)
  · simp

theorem after_of {d : Char} {a b : Str} (h : d ∉ a) :
    (a ++ d :: b).dropWhile (· != d) = d :: b := by
  have hall : ∀ x ∈ a, (x != d) = true := by
    intro x hx
    simpa using fun e : x = d => h (e ▸ hx)
  rw [List.dropWhile_append_of_pos hall, List.dropWhile_cons_of_neg (by simp)]

theorem evalItem_cond (w : CmdWrapper) (argv : List Str) {cond sides : Str} (h : '?' ∉ cond) :
    evalItem w argv (cond ++ '?' :: sides) =
      if argv.any (w.fnmatch cond) then sides.takeWhile (· != ':')
      else (sides.dropWhile (· != ':')).tail := by
  simp only [evalItem, before_of h, after_of h, List.tail_cons]
  rw [if_pos (by simp)]

theorem evalCondArg_sides (w : CmdWrapper) (argv : List Str) {cond lhs : Str}
    (hc : nul ∉ cond ∧ '?' ∉ cond) (hl : nul ∉ lhs ∧ ':' ∉ lhs) (rhs pre post : Str) :
    evalCondArg w argv (pre ++ (cond ++ '?' :: (lhs ++ ':' :: (rhs ++ nul :: post)))) pre.length =
      (pre ++ (cond ++ nul :: (lhs ++ nul :: (rhs ++ nul :: post))),
        if argv.any (w.fnmatch cond) then (pre ++ cond ++ [nul]).length
        else (pre ++ cond ++ [nul] ++ lhs ++ [nul]).length) := by
  have hscan := scanTo_of pre (lhs ++ ':' :: (rhs ++ nul :: post)) hc.1 hc.2 (.inr rfl)
  have hchar := char_at (pre ++ cond) '?' (lhs ++ ':' :: (rhs ++ nul :: post))
  have hwrite := write_at (pre ++ cond) '?' nul (lhs ++ ':' :: (rhs ++ nul :: post))
  have hscan' := scanTo_of (pre ++ cond ++ [nul]) (rhs ++ nul :: post) hl.1 hl.2 (.inr rfl)
  have hchar' := char_at (pre ++ cond ++ [nul] ++ lhs) ':' (rhs ++ nul :: post)
  have hwrite' := write_at (pre ++ cond ++ [nul] ++ lhs) ':' nul (rhs ++ nul :: post)
  have hcond := strAt_of pre (lhs ++ nul :: (rhs ++ nul :: post)) hc.1
  simp only [List.append_assoc, List.length_append, List.cons_append, List.nil_append,
    List.length_cons, List.length_nil, Nat.zero_add, Nat.add_assoc, Nat.add_comm 1 lhs.length]
    at hscan hchar hwrite hscan' hchar' hwrite' hcond
  simp only [evalCondArg, hscan, hchar, ne_eq, not_true_eq_false, if_false, hwrite, Nat.add_assoc,
    hscan', hchar', if_true, hwrite', hcond]
  split <;> simp [Nat.add_assoc]

theorem evalCondArg_noColon (w : CmdWrapper) (argv : List Str) {cond lhs : Str}
    (hc : nul ∉ cond ∧ '?' ∉ cond) (hl : nul ∉ lhs ∧ ':' ∉ lhs) (pre post : Str) :
    evalCondArg w argv (pre ++ (cond ++ '?' :: (lhs ++ nul :: post))) pre.length =
      (pre ++ (cond ++ nul :: (lhs ++ nul :: post)),
        if argv.any (w.fnmatch cond) then (pre ++ cond ++ [nul]).length
        else (pre ++ cond ++ [nul] ++ lhs).length) := by
  have hscan := scanTo_of pre (lhs ++ nul :: post) hc.1 hc.2 (.inr rfl)
  have hchar := char_at (pre ++ cond) '?' (lhs ++ nul :: post)
  have hwrite := write_at (pre ++ cond) '?' nul (lhs ++ nul :: post)
  have hscan' := scanTo_of (pre ++ cond ++ [nul]) post hl.1 hl.2 (.inl rfl)
  have hchar' := char_at (pre ++ cond ++ [nul] ++ lhs) nul post
  have hcond := strAt_of pre (lhs ++ nul :: post) hc.1
  simp only [List.append_assoc, List.length_append, List.cons_append, List.nil_append,
    List.length_cons, List.length_nil, Nat.zero_add, Nat.add_assoc, Nat.add_comm 1 lhs.length]
    at hscan hchar hwrite hscan' hchar' hcond
  have hne : nul ≠ ':' := by decide
  simp only [evalCondArg, hscan, hchar, ne_eq, not_true_eq_false, if_false, hwrite, Nat.add_assoc,
    hscan', hchar', hne, hcond]
  split <;> simp

theorem evalCondArg_plain (w : CmdWrapper) (argv : List Str) {item : Str}
    (hi : nul ∉ item ∧ '?' ∉ item) (pre post : Str) :
    evalCondArg w argv (pre ++ (item ++ nul :: post)) pre.length =
      (pre ++ (item ++ nul :: post), pre.length) := by
  have hscan := scanTo_of pre post hi.1 hi.2 (.inl rfl)
  have hchar := char_at (pre ++ item) nul post
  simp only [List.append_assoc, List.length_append] at hscan hchar
  have hne : nul ≠ '?' := by decide
  simp only [evalCondArg, hscan, hchar, hne, ne_eq, not_false_eq_true, if_true]

/-- The evaluator changes its item in place, returns a pointer into it, and the string there is
the value of the item, whatever follows it in memory. -/
theorem evalCondArg_spec (w : CmdWrapper) (argv : List Str) {item : Str} (hi : nul ∉ item)
    (pre : Str) : ∃ item' k, item'.length = item.length ∧ ∀ post,
      evalCondArg w argv (pre ++ (item ++ nul :: post)) pre.length =
          (pre ++ (item' ++ nul :: post), k) ∧
        strAt (pre ++ (item' ++ nul :: post)) k = evalItem w argv item := by
  rcases item_cases item with hplain | ⟨cond, sides, rfl, hc⟩
  · refine ⟨item, pre.length, rfl, fun post => ⟨evalCondArg_plain w argv ⟨hi, hplain⟩ pre post, ?_⟩⟩
    rw [strAt_of pre post hi, evalItem, if_neg hplain]
  · simp only [List.mem_append, List.mem_cons, not_or] at hi
    obtain ⟨hcn, -, hsn⟩ := hi
    by_cases hcolon : ':' ∈ sides
    · obtain ⟨lhs, rhs, rfl, hl⟩ := List.eq_append_cons_of_mem hcolon
      simp only [List.mem_append, List.mem_cons, not_or] at hsn
      obtain ⟨hln, -, hrn⟩ := hsn
      refine ⟨cond ++ nul :: (lhs ++ nul :: rhs), if argv.any (w.fnmatch cond) then
        (pre ++ cond ++ [nul]).length else (pre ++ cond ++ [nul] ++ lhs ++ [nul]).length,
        by simp, fun post => ⟨?_, ?_⟩⟩
      · have := evalCondArg_sides w argv ⟨hcn, hc⟩ ⟨hln, hl⟩ rhs pre post
        simpa using this
      · rw [evalItem_cond w argv hc, before_of hl, after_of hl, List.tail_cons]
        split
        · have := strAt_of (pre ++ cond ++ [nul]) (rhs ++ nul :: post) hln
          simpa using this
        · have := strAt_of (pre ++ cond ++ [nul] ++ lhs ++ [nul]) post hrn
          simpa using this
    · refine ⟨cond ++ nul :: sides, if argv.any (w.fnmatch cond) then
        (pre ++ cond ++ [nul]).length else (pre ++ cond ++ [nul] ++ sides).length,
        by simp, fun post => ⟨?_, ?_⟩⟩
      · have := evalCondArg_noColon w argv ⟨hcn, hc⟩ ⟨hsn, hcolon⟩ pre post
        simpa using this
      · have hall : ∀ x ∈ sides, (x != ':') = true := by
          intro x hx
          simpa using fun e : x = ':' => hcolon (e ▸ hx)
        rw [evalItem_cond w argv hc, List.takeWhile_eq_self_iff.mpr hall,
          List.dropWhile_eq_nil_iff.mpr hall]
        split
        · have := strAt_of (pre ++ cond ++ [nul]) post hsn
          simpa using this
        · have := strAt_of (pre ++ cond ++ [nul] ++ sides) post (s := []) (by simp)
          simpa using this

end T2SDE
