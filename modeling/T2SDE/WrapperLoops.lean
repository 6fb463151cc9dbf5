import T2SDE.WrapperItems

namespace T2SDE

open Text CString

theorem char_eq_nul {mem : Str} {p : Nat} : char mem p = nul ↔ strAt mem p = [] := by
  have hhead : char mem p = (mem.drop p).head?.getD nul := by
    rw [char, List.getD_eq_getElem?_getD, List.head?_drop]
  rw [hhead, strAt]
  cases mem.drop p with
  | nil => simp
  | cons c rest =>
    by_cases hc : c = nul
    · simp [hc]
    · simp [hc]

/-- `realloc_if_needed` followed by the write of an element. -/
def NewArgv.push (newargv : NewArgv) (p : Pointer) : NewArgv := newargv.reallocIfNeeded.put p

/-- All writes were within bounds, and there is room for the closing NULL. -/
structure NewArgv.Ok (newargv : NewArgv) : Prop where
  inBounds : newargv.inBounds = true
  room : newargv.elems.length < newargv.newargc

theorem NewArgv.Ok.close {newargv : NewArgv} (h : newargv.Ok) : newargv.close = true := by
  simp [NewArgv.close, h.inBounds, h.room]

@[simp] theorem NewArgv.push_elems (newargv : NewArgv) (p : Pointer) :
    (newargv.push p).elems = newargv.elems ++ [p] := by
  unfold push reallocIfNeeded put
  split <;> rfl

theorem NewArgv.Ok.push {newargv : NewArgv} (h : newargv.Ok) (p : Pointer) : (newargv.push p).Ok := by
  have hb := h.inBounds
  have hr := h.room
  unfold NewArgv.push NewArgv.reallocIfNeeded NewArgv.put
  split
  · exact ⟨by simp [hb]; omega, by simp; omega⟩
  · exact ⟨by simp [hb]; omega, by simp; omega⟩

def NewArgv.pushAll (newargv : NewArgv) (ps : List Pointer) : NewArgv := ps.foldl NewArgv.push newargv

@[simp] theorem NewArgv.pushAll_elems (newargv : NewArgv) (ps : List Pointer) :
    (newargv.pushAll ps).elems = newargv.elems ++ ps := by
  induction ps generalizing newargv with
  | nil => simp [pushAll]
  | cons p ps ih =>
    have := ih (newargv.push p)
    simpa [pushAll] using this

theorem NewArgv.Ok.pushAll {newargv : NewArgv} (h : newargv.Ok) (ps : List Pointer) :
    (newargv.pushAll ps).Ok := by
  induction ps generalizing newargv with
  | nil => exact h
  | cons p ps ih => exact ih (h.push p)

section Loops

variable (w : CmdWrapper) (argv : List Str) (pointer : Nat → Pointer)

theorem copyOptions_blank {s : Str} (hs : ∀ c ∈ s, (c == ' ') = true) (pre : Str) (fuel : Nat)
    (newargv : NewArgv) :
    copyOptions w argv pointer fuel (pre ++ strcpy s) pre.length newargv =
      (pre ++ strcpy s, newargv) := by
  cases fuel with
  | zero => rfl
  | succ fuel => simp only [copyOptions, strtok_blank (by decide) hs pre]

theorem copyOptions_token {tok : Str} (ht : nul ∉ tok) (pre : Str) :
    ∃ (item' : Str) (ps : List Nat), item'.length = tok.length ∧
      (∀ post, ps.map (strAt (pre ++ (item' ++ nul :: post))) =
        [evalItem w argv tok].filter (· != [])) ∧
      ∀ mem save save' post fuel newargv,
        strtok ' ' mem save = some ⟨pre.length, pre ++ (tok ++ nul :: post), save'⟩ →
        copyOptions w argv pointer (fuel + 1) mem save newargv =
          copyOptions w argv pointer fuel (pre ++ (item' ++ nul :: post)) save'
            (newargv.pushAll (ps.map pointer)) := by
  obtain ⟨item', k, hlen, hspec⟩ := evalCondArg_spec w argv ht pre
  by_cases hv : evalItem w argv tok = []
  · refine ⟨item', [], hlen, by simp [hv], fun mem save save' post fuel newargv hstrtok => ?_⟩
    obtain ⟨heval, hstr⟩ := hspec post
    have hchar := char_eq_nul.mpr (hstr.trans hv)
    simp only [copyOptions, hstrtok, heval, hchar, ne_eq, not_true_eq_false, if_false]
    rfl
  · refine ⟨item', [k], hlen, fun post => by simp [(hspec post).2, hv],
      fun mem save save' post fuel newargv hstrtok => ?_⟩
    obtain ⟨heval, hstr⟩ := hspec post
    have hchar : char (pre ++ (item' ++ nul :: post)) k ≠ nul := fun h =>
      hv (hstr.symm.trans (char_eq_nul.mp h))
    simp only [copyOptions, hstrtok, heval, hchar, ne_eq, not_false_eq_true, if_true]
    rfl

/-- The loop over a variable appends pointers to the values of its items. -/
theorem copyOptions_view {s : Str} {ws : List Str} (hv : TokenView (· == ' ') s ws) (hs : nul ∉ s)
    (pre : Str) {fuel : Nat} (hf : ws.length ≤ fuel) (newargv : NewArgv) :
    ∃ (ps : List Nat) (t : Str), copyOptions w argv pointer fuel (pre ++ strcpy s) pre.length newargv =
        (pre ++ t, newargv.pushAll (ps.map pointer)) ∧
      ps.map (strAt (pre ++ t)) = (ws.map (evalItem w argv)).filter (· != []) := by
  induction hv generalizing pre fuel newargv with
  | @blank s hblank => exact ⟨[], strcpy s, copyOptions_blank w argv pointer hblank pre fuel newargv, rfl⟩
  | @last seps tok hseps hne htok =>
    obtain ⟨fuel, rfl⟩ := Nat.exists_eq_add_of_le' hf
    have hn : nul ∉ tok := fun h => hs (by simp [h])
    have hd : ' ' ∉ tok := fun h => by simpa using htok ' ' h
    obtain ⟨item', ps, hlen, hstr, hstep⟩ := copyOptions_token w argv pointer hn (pre ++ seps)
    refine ⟨ps, seps ++ item' ++ [nul], ?_, by simpa using hstr []⟩
    have hround := hstep _ _ _ [] fuel newargv (strtok_last hseps hne hd hn pre)
    have hblank := copyOptions_blank w argv pointer (by simp : ∀ c ∈ [], (c == ' ') = true)
      (pre ++ seps ++ item') fuel (newargv.pushAll (ps.map pointer))
    simp only [List.length_append, hlen, strcpy, List.nil_append, List.append_assoc] at hround hblank ⊢
    exact hround.trans hblank
  | @next seps tok rest d ws hseps hne htok hd _ ih =>
    obtain ⟨fuel, rfl⟩ := Nat.exists_eq_add_of_le' hf
    obtain rfl : d = ' ' := by simpa using hd
    have hn : nul ∉ tok := fun h => hs (by simp [h])
    have hblank : ' ' ∉ tok := fun h => by simpa using htok ' ' h
    obtain ⟨item', ps, hlen, hstr, hstep⟩ := copyOptions_token w argv pointer hn (pre ++ seps)
    obtain ⟨qs, t, hrun, hstrs⟩ := ih (fun h => hs (by simp [h])) (pre ++ seps ++ item' ++ [nul])
      (Nat.le_add_left ws.length fuel) (newargv.pushAll (ps.map pointer))
    refine ⟨ps ++ qs, seps ++ item' ++ [nul] ++ t, ?_, ?_⟩
    · have hround := hstep _ _ _ (strcpy rest) (fuel + ws.length) newargv
        (strtok_next (by decide) hseps hne hblank hn pre rest)
      simp only [List.length_append, hlen, List.append_assoc, List.cons_append, List.nil_append]
        at hround hrun ⊢
      refine hround.trans (hrun.trans ?_)
      simp [NewArgv.pushAll]
    · have hfirst := hstr t
      have hcons : (tok :: ws).map (evalItem w argv) =
          [evalItem w argv tok] ++ ws.map (evalItem w argv) := rfl
      simp only [List.append_assoc, List.cons_append, List.nil_append] at hfirst hstrs ⊢
      rw [List.map_append, hfirst, hstrs, hcons, List.filter_append]

theorem any_values_cons (value : Str) (values : List Str) (p : Str → Bool) :
    ((value :: values).filter (· != [])).any p =
      (value != [] && p value || (values.filter (· != [])).any p) := by
  cases value with
  | nil => rfl
  | cons c value => rfl

theorem removeLoop_blank (arg : Str) {s : Str} (hs : ∀ c ∈ s, (c == ' ') = true) (pre : Str)
    (fuel : Nat) : removeLoop w argv arg fuel (pre ++ strcpy s) pre.length = false := by
  cases fuel with
  | zero => rfl
  | succ fuel => simp only [removeLoop, strtok_blank (by decide) hs pre]

theorem removeLoop_token (arg : Str) {tok : Str} (ht : nul ∉ tok) (pre : Str) :
    ∃ item' : Str, item'.length = tok.length ∧ ∀ mem save save' post fuel,
      strtok ' ' mem save = some ⟨pre.length, pre ++ (tok ++ nul :: post), save'⟩ →
      removeLoop w argv arg (fuel + 1) mem save =
        (evalItem w argv tok != [] && w.fnmatch (evalItem w argv tok) arg ||
          removeLoop w argv arg fuel (pre ++ (item' ++ nul :: post)) save') := by
  obtain ⟨item', k, hlen, hspec⟩ := evalCondArg_spec w argv ht pre
  refine ⟨item', hlen, fun mem save save' post fuel hstrtok => ?_⟩
  obtain ⟨heval, hstr⟩ := hspec post
  simp only [removeLoop, hstrtok, heval, hstr, ne_eq, char_eq_nul]
  by_cases hv : evalItem w argv tok = [] <;> cases hm : w.fnmatch (evalItem w argv tok) arg <;> simp [hv]

/-- The loop over REMOVE ends with a match where a non-empty value of an item matches. -/
theorem removeLoop_view (arg : Str) {s : Str} {ws : List Str} (hv : TokenView (· == ' ') s ws)
    (hs : nul ∉ s) (pre : Str) {fuel : Nat} (hf : ws.length ≤ fuel) :
    removeLoop w argv arg fuel (pre ++ strcpy s) pre.length =
      ((ws.map (evalItem w argv)).filter (· != [])).any fun item => w.fnmatch item arg := by
  induction hv generalizing pre fuel with
  | @blank s hblank => exact removeLoop_blank w argv arg hblank pre fuel
  | @last seps tok hseps hne htok =>
    obtain ⟨fuel, rfl⟩ := Nat.exists_eq_add_of_le' hf
    have hn : nul ∉ tok := fun h => hs (by simp [h])
    have hd : ' ' ∉ tok := fun h => by simpa using htok ' ' h
    obtain ⟨item', hlen, hstep⟩ := removeLoop_token w argv arg hn (pre ++ seps)
    have hround := hstep _ _ _ [] fuel (strtok_last hseps hne hd hn pre)
    have hblank := removeLoop_blank w argv arg (by simp : ∀ c ∈ [], (c == ' ') = true)
      (pre ++ seps ++ item') fuel
    simp only [List.length_append, hlen, strcpy, List.nil_append, List.append_assoc] at hround hblank ⊢
    rw [hblank] at hround
    rw [List.map_singleton, any_values_cons]
    exact hround
  | @next seps tok rest d ws hseps hne htok hd _ ih =>
    obtain ⟨fuel, rfl⟩ := Nat.exists_eq_add_of_le' hf
    obtain rfl : d = ' ' := by simpa using hd
    have hn : nul ∉ tok := fun h => hs (by simp [h])
    have hblank : ' ' ∉ tok := fun h => by simpa using htok ' ' h
    obtain ⟨item', hlen, hstep⟩ := removeLoop_token w argv arg hn (pre ++ seps)
    have hround := hstep _ _ _ (strcpy rest) (fuel + ws.length)
      (strtok_next (by decide) hseps hne hblank hn pre rest)
    have hrun := ih (fun h => hs (by simp [h])) (pre ++ seps ++ item' ++ [nul])
      (Nat.le_add_left ws.length fuel)
    simp only [List.length_append, hlen, List.append_assoc, List.cons_append, List.nil_append]
      at hround hrun ⊢
    rw [hrun] at hround
    rw [List.map_cons, any_values_cons]
    exact hround

end Loops

theorem copyVariable_spec (w : CmdWrapper) (argv : List Str) (pointer : Nat → Pointer) {s : Str}
    (hs : nul ∉ s) (newargv : NewArgv) :
    ∃ (ps : List Nat) (mem : Str), copyVariable w argv pointer (some s) newargv =
    (mem, newargv.pushAll (ps.map pointer)) ∧
      ps.map (strAt mem) = itemValues w argv s := by
  have hview := tokens_view (· == ' ') s
  obtain ⟨ps, t, hrun, hstr⟩ :=
    copyOptions_view w argv pointer hview hs [] (length_tokens_le hview) newargv
  exact ⟨ps, t, hrun, hstr⟩

theorem removed_spec (w : CmdWrapper) (argv : List Str) {s : Str} (hs : nul ∉ s) (arg : Str) :
    removed w argv (some s) arg = (itemValues w argv s).any fun item => w.fnmatch item arg := by
  have hview := tokens_view (· == ' ') s
  exact removeLoop_view w argv arg hview hs [] (length_tokens_le hview)

end T2SDE
