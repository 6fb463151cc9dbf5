import T2SDE.Getopt

namespace T2SDE.Getopt

open Text

section Condition

variable {N : Type} {lua : Numbers N} {defs : List (Def N)} {d : Def N} {front l : List (Item N)}
    {it : Item N}
  {opt opt' : Str → Option (Value N)}

theorem exists_split_cons {α : Type} {x : α} {l : List α} {P : List α → α → List α → Prop} :
    (∃ front y back, x :: l = front ++ y :: back ∧ P front y back) ↔
      P [] x l ∨ ∃ front y back, l = front ++ y :: back ∧ P (x :: front) y back := by
  constructor
  · rintro ⟨front, y, back, heq, h⟩
    cases front with
    | nil =>
      obtain ⟨rfl, rfl⟩ := List.cons.inj heq
      exact .inl h
    | cons z front =>
      obtain ⟨rfl, rfl⟩ := List.cons.inj heq
      exact .inr ⟨front, y, back, rfl, h⟩
  · rintro (h | ⟨front, y, back, rfl, h⟩)
    · exact ⟨[], x, l, rfl, h⟩
    · exact ⟨x :: front, y, back, rfl, h⟩

theorem forall_split_cons {α : Type} {x : α} {l : List α} {P : α → List α → Prop} :
    (∀ front y back, x :: l = front ++ y :: back → P y back) ↔
      P x l ∧ ∀ front y back, l = front ++ y :: back → P y back := by
  constructor
  · intro h
    exact ⟨h [] x l rfl, fun front y back heq => h (x :: front) y back (by rw [heq]; rfl)⟩
  · rintro ⟨hx, hl⟩ front y back heq
    cases front with
    | nil =>
      obtain ⟨rfl, rfl⟩ := List.cons.inj heq
      exact hx
    | cons z front =>
      obtain ⟨rfl, rfl⟩ := List.cons.inj heq
      exact hl front y back rfl

/-- An option that counts stands where there is no number, and nothing is returned before. -/
def Stuck (lua : Numbers N) (defs : List (Def N)) (front l : List (Item N)) : Prop :=
  ∃ mid it back, l = mid ++ it :: back ∧ (∀ x ∈ mid, ¬x.Lacks) ∧ ¬(it.Lacks ∧ back ≠ []) ∧
    it.Stops lua defs (front ++ mid)

/-- An option lacks its argument in front of another argument. -/
def Missing (l : List (Item N)) : Prop := ∃ front it back, l = front ++ it :: back ∧ it.Lacks ∧ back ≠ []

theorem numeric_concat (key : Str) : Numeric lua defs (front ++ [it]) key ↔
    if it.sets key then (∃ d a arg, it = .option d a arg ∧
      (d.flag = .incremental ∨ ∃ s, arg = some s ∧ lua.tonumber s ≠ none))
      else Numeric lua defs front key := by
  rw [Numeric, List.filter_append]
  cases hsets : it.sets key with
  | false => simp [hsets, Numeric]
  | true =>
    cases it with
    | positional a => cases hsets
    | option d a arg => simp [hsets]

/-- Whether an option leaves a number. -/
theorem flagged_number {old val : Option (Value N)} {arg : Option Str} {last : Bool}
    (h : flagged lua d old (argument d arg last) = .ok val) :
    tonumber lua val ≠ none ↔ d.flag = .incremental ∨ ∃ s, arg = some s ∧ lua.tonumber s ≠ none := by
  have hargument : tonumber lua (argument d arg last) ≠ none ↔ ∃ s, arg = some s ∧ lua.tonumber s ≠ none := by
    cases arg with
    | none =>
      rw [argument, Option.elim_none]
      split <;> simp [tonumber]
    | some s => simp [argument, tonumber]
  unfold flagged at h
  cases hflag : d.flag with
  | none =>
    rw [hflag] at h
    cases h
    simp [hargument]
  | number =>
    rw [hflag] at h
    cases h
    have hmap : ∀ v : Option N, tonumber lua (v.map .number) = v := fun v => by cases v <;> rfl
    rw [hmap, hargument]
    simp
  | incremental =>
    rw [hflag] at h
    cases hold : tonumber lua old with
    | none => simp [hold] at h
    | some n =>
      rw [hold] at h
      cases h
      simp [tonumber]

/-- The entry of an option is what it shows, at least if another argument follows. -/
theorem flagged_eq {old val : Option (Value N)} {arg : Option Str} {last : Bool} {v : Value N}
    (h : flagged lua d old (argument d arg last) = .ok val) (hshows : Shows lua d old arg v)
    (hlast : last = true → val = some v) : val = some v := by
  unfold flagged at h
  unfold Shows at hshows
  cases hflag : d.flag with
  | none =>
    rw [hflag] at h hshows
    cases h
    cases last with
    | true => exact hlast rfl
    | false =>
      rw [hshows, argument, Bool.and_false]
      cases arg <;> rfl
  | number =>
    rw [hflag] at h hshows
    obtain ⟨s, n, rfl, hn, rfl⟩ := hshows
    cases h
    rw [argument, Option.elim_some, tonumber, hn, Option.map_some]
  | incremental =>
    rw [hflag] at h hshows
    obtain ⟨n, hn, rfl⟩ := hshows
    rw [hn] at h
    cases h
    rfl

theorem valued_of_shows {old : Option (Value N)} {a : Str} {arg : Option Str} {back : List (Item N)}
    {v : Value N}
    (h : flagged lua d old (argument d arg back.isEmpty) = .ok (some v)) (hshows : Shows lua d old arg v) :
    (Item.option d a arg).Valued lua back := by
  refine ⟨fun hflag harg hback => ?_, fun hflag => ?_⟩
  · subst harg hback
    rw [flagged, hflag, argument, Option.elim_none] at h
    cases htakes : d.takes with
    | false => rfl
    | true => simp [htakes] at h
  · rw [Shows, hflag] at hshows
    obtain ⟨s, n, rfl, hn, -⟩ := hshows
    exact ⟨s, rfl, by simp [hn]⟩

theorem shows_of_valued {old val : Option (Value N)} {a : Str} {arg : Option Str} {back : List (Item N)}
    (h : flagged lua d old (argument d arg back.isEmpty) = .ok val)
    (hvalued : (Item.option d a arg).Valued lua back) : ∃ v, val = some v ∧ Shows lua d old arg v := by
  unfold flagged at h
  unfold Shows
  cases hflag : d.flag with
  | none =>
    rw [hflag] at h
    cases h
    refine ⟨_, ?_, rfl⟩
    cases arg with
    | some s => rfl
    | none =>
      have htakes : (d.takes && back.isEmpty) = false := by
        cases back with
        | nil => rw [hvalued.1 hflag rfl rfl, Bool.false_and]
        | cons x back => exact Bool.and_false _
      rw [argument, htakes]
      rfl
  | number =>
    rw [hflag] at h
    obtain ⟨s, rfl, hs⟩ := hvalued.2 hflag
    obtain ⟨n, hn⟩ := Option.ne_none_iff_exists'.mp hs
    cases h
    exact ⟨.number n, by rw [argument, Option.elim_some, tonumber, hn, Option.map_some], s, n, rfl, hn, rfl⟩
  | incremental =>
    rw [hflag] at h
    cases hold : tonumber lua old with
    | none =>
      rw [hold] at h
      cases h
    | some n =>
      rw [hold] at h
      cases h
      exact ⟨_, rfl, n, rfl, rfl⟩

/-- An interpreter error comes from counting what is no number. -/
theorem flagged_error {old val : Option (Value N)} {e : Failure} (h : flagged lua d old val = .error e) :
    e = .raised ∧ d.flag = .incremental ∧ tonumber lua old = none := by
  unfold flagged at h
  cases hflag : d.flag with
  | none => simp [hflag] at h
  | number => simp [hflag] at h
  | incremental =>
    cases hold : tonumber lua old with
    | some n => simp [hflag, hold] at h
    | none =>
      rw [hflag, hold] at h
      cases h
      exact ⟨rfl, rfl, rfl⟩

theorem flagged_count {old val val' : Option (Value N)} (h : flagged lua d old val = .ok val')
    (hflag : d.flag = .incremental) : tonumber lua old ≠ none := by
  intro hold
  rw [flagged, hflag, hold] at h
  cases h

theorem not_stuck_nil : ¬Stuck lua defs front [] := by
  rintro ⟨mid, it, back, heq, -⟩
  simp at heq

theorem stuck_cons : Stuck lua defs front (it :: l) ↔ ¬(it.Lacks ∧ l ≠ []) ∧ it.Stops lua defs front ∨
    ¬it.Lacks ∧ Stuck lua defs (front ++ [it]) l := by
  rw [Stuck, exists_split_cons, List.append_nil]
  constructor
  · rintro (⟨-, h⟩ | ⟨mid, y, back, heq, hmid, hlost, hstops⟩)
    · exact .inl h
    · obtain ⟨hit, hmid⟩ := List.forall_mem_cons.mp hmid
      exact .inr ⟨hit, mid, y, back, heq, hmid, hlost, by rwa [List.append_assoc]⟩
  · rintro (h | ⟨hit, mid, y, back, heq, hmid, hlost, hstops⟩)
    · exact .inl ⟨by simp, h⟩
    · exact .inr ⟨mid, y, back, heq, List.forall_mem_cons.mpr ⟨hit, hmid⟩, hlost,
        by rwa [List.append_assoc] at hstops⟩

/-- An option whose argument is there goes the way of `flagged`. -/
theorem runItems_option (lua : Numbers N) (opt : Str → Option (Value N)) {d : Def N} {a : Str}
    {arg : Option Str}
    (h : ¬((Item.option d a arg).Lacks ∧ l ≠ [])) : runItems lua opt (.option d a arg :: l) =
      (flagged lua d (opt d.key) (argument d arg l.isEmpty)).bind fun val =>
        runItems lua (Function.update opt d.key val) l := by
  have hno : ¬(d.argument == .required && arg.isNone && !l.isEmpty) = true := by
    intro hcond
    simp only [Bool.and_eq_true, beq_iff_eq, Option.isNone_iff_eq_none, Bool.not_eq_true',
      List.isEmpty_eq_false_iff] at hcond
    exact h ⟨⟨hcond.1.1, hcond.1.2⟩, hcond.2⟩
  rw [runItems, if_neg hno]
  cases flagged lua d (opt d.key) (argument d arg l.isEmpty) with
  | error e => rfl
  | ok val => rfl

/-- The three ways in which the second pass can end. -/
theorem runItems_cases (front : List (Item N)) (l : List (Item N)) (opt : Str → Option (Value N))
    (hopt : ∀ key, tonumber lua (opt key) ≠ none ↔ Numeric lua defs front key) :
    runItems lua opt l = .error .raised ∧ Stuck lua defs front l ∨
    (∃ err, runItems lua opt l = .error (.returned err)) ∧ Missing l ∧ ¬Stuck lua defs front l ∨
    ∃ opt', runItems lua opt l = .ok opt' ∧ ¬Missing l ∧ ¬Stuck lua defs front l ∧
      (Recorded lua opt l opt' ↔ ∀ front it back, l = front ++ it :: back → it.Valued lua back) := by
  induction l generalizing front opt with
  | nil =>
    refine .inr (.inr ⟨opt, rfl, ?_, ?_, ?_⟩)
    · rintro ⟨mid, it, back, heq, -⟩
      simp at heq
    · rintro ⟨mid, it, back, heq, -⟩
      simp at heq
    · simp [Recorded]
  | cons it l ih =>
    have hmissing : Missing (it :: l) ↔ it.Lacks ∧ l ≠ [] ∨ Missing l := exists_split_cons
    rw [forall_split_cons, stuck_cons, hmissing]
    cases it with
    | positional a =>
      have hnumeric : ∀ key, tonumber lua (opt key) ≠ none ↔
        Numeric lua defs (front ++ [.positional a]) key := by
        intro key
        rw [numeric_concat, hopt key]
        simp [Item.sets]
      simpa [runItems, Item.Lacks, Item.Stops, Item.Valued, Recorded] using ih
        (front ++ [.positional a]) opt hnumeric
    | option d a arg =>
      by_cases hlost : (Item.option d a arg).Lacks ∧ l ≠ []
      · obtain ⟨⟨hreq, rfl⟩, hne⟩ := hlost
        refine .inr (.inl ⟨⟨_, if_pos ?_⟩, .inl ⟨⟨hreq, rfl⟩, hne⟩, ?_⟩)
        · simp [hreq, hne]
        · rintro (⟨h, -⟩ | ⟨h, -⟩)
          · exact h ⟨⟨hreq, rfl⟩, hne⟩
          · exact h ⟨hreq, rfl⟩
      · have hrun := runItems_option lua opt hlost
        cases hflagged : flagged lua d (opt d.key) (argument d arg l.isEmpty) with
        | error e =>
          obtain ⟨rfl, hflag, hold⟩ := flagged_error hflagged
          rw [hflagged] at hrun
          refine .inl ⟨hrun, .inl ⟨hlost, hflag, ?_⟩⟩
          rw [← hopt d.key]
          exact not_not.mpr hold
        | ok val =>
          rw [hflagged] at hrun
          change _ = runItems lua (Function.update opt d.key val) l at hrun
          have hstops : ¬(Item.option d a arg).Stops lua defs front := by
            rintro ⟨hflag, hnumeric⟩
            exact hnumeric ((hopt d.key).mp (flagged_count hflagged hflag))
          have hstuck : ¬(Item.option d a arg).Lacks ∧ Stuck lua defs (front ++ [.option d a arg]) l ↔
              Stuck lua defs (front ++ [.option d a arg]) l := by
            refine and_iff_right_of_imp fun h hlacks => ?_
            rw [not_and_not_right] at hlost
            exact not_stuck_nil (hlost hlacks ▸ h)
          have hnumeric : ∀ key, tonumber lua (Function.update opt d.key val key) ≠ none ↔
              Numeric lua defs (front ++ [.option d a arg]) key := by
            intro key
            rw [numeric_concat]
            by_cases hkey : d.key = key
            · subst hkey
              rw [Function.update_self, flagged_number hflagged, if_pos (by simp [Item.sets])]
              simp
            · rw [Function.update_of_ne (Ne.symm hkey), hopt key, if_neg (by simp [Item.sets, hkey])]
          rw [hrun, hstuck]
          simp only [hlost, hstops, and_false, false_or]
          rcases ih (front ++ [.option d a arg]) (Function.update opt d.key val) hnumeric with
            ⟨hraised, hstuck⟩ | ⟨herr, hmiss, hstuck⟩ | ⟨opt', hok, hmiss, hstuck, hrecorded⟩
          · exact .inl ⟨hraised, hstuck⟩
          · exact .inr (.inl ⟨herr, hmiss, hstuck⟩)
          · refine .inr (.inr ⟨opt', hok, hmiss, hstuck, ?_⟩)
            rw [← hrecorded, Recorded]
            constructor
            · rintro ⟨v, hshows, hrest⟩
              have hval : val = some v := by
                refine flagged_eq hflagged hshows fun hlast => ?_
                rw [List.isEmpty_iff.mp hlast] at hok hrest
                have hsame := congrFun (Except.ok.inj hok |>.trans hrest) d.key
                rwa [Function.update_self, Function.update_self] at hsame
              subst hval
              exact ⟨valued_of_shows hflagged hshows, hrest⟩
            · rintro ⟨hvalued, hrest⟩
              obtain ⟨v, rfl, hshows⟩ := shows_of_valued hflagged hvalued
              exact ⟨v, hshows, hrest⟩

/-- The code does as it should just if no option counts what is no number, an error is noticed, and
otherwise each option has a value. -/
theorem accounts_iff (lua : Numbers N) (defs : List (Def N)) (args : List Str) :
    Accounts lua defs args ↔ Fits lua defs args := by
  have hcounts : ¬Stuck lua defs [] (items defs args) ↔ ∀ front it back,
    items defs args = front ++ it :: back →
      (∀ x ∈ front, ¬x.Lacks) → ¬(it.Lacks ∧ back ≠ []) → ¬it.Stops lua defs front := by
    constructor
    · exact fun h front it back heq hfront hlost hstops => h ⟨front, it, back, heq, hfront, hlost, hstops⟩
    · rintro h ⟨front, it, back, heq, hfront, hlost, hstops⟩
      exact h front it back heq hfront hlost hstops
  rcases @runItems_cases N lua defs [] (items defs args) (defaults defs) fun key => Iff.rfl with
    ⟨hrun, hs⟩ | ⟨⟨err, hrun⟩, hmiss, hs⟩ | ⟨opt, hrun, hmiss, hs, hrecorded⟩
  · have hget := getopt_of_error hrun
    constructor
    · rintro ⟨-, hfaulty, hfine⟩
      by_cases h : ∃ it ∈ items defs args, it.Faulty
      · obtain ⟨err, herr⟩ := hfaulty h
        cases hget.symm.trans herr
      · obtain ⟨opt, hok, -⟩ := hfine fun it hit hbad => h ⟨it, hit, hbad⟩
        cases hget.symm.trans hok
    · intro h
      exact absurd hs (hcounts.mpr h.counts)
  · obtain ⟨front, it, back, heq, hlacks, hne⟩ := hmiss
    have hmem : it ∈ items defs args := heq ▸ List.mem_append_right front List.mem_cons_self
    constructor
    · intro _
      exact ⟨hcounts.mp hs, fun _ => ⟨front, it, back, heq, .inr ⟨hlacks, hne⟩⟩,
        fun h => absurd (.inr hlacks) (h it hmem)⟩
    · intro _
      exact ⟨items_texts defs args, fun _ => ⟨err, getopt_of_error hrun⟩, fun h =>
        absurd (.inr hlacks) (h it hmem)⟩
  · by_cases hunknown : ∃ it ∈ items defs args, it.Unknown
    · obtain ⟨it, hit, hdash⟩ := hunknown
      obtain ⟨front, back, heq⟩ := List.append_of_mem hit
      constructor
      · intro _
        exact ⟨hcounts.mp hs, fun _ => ⟨front, it, back, heq, .inl hdash⟩, fun h =>
          absurd (.inl hdash) (h it hit)⟩
      · intro _
        exact ⟨items_texts defs args, fun _ => getopt_unknown hrun ⟨it, hit, hdash⟩,
          fun h => absurd (.inl hdash) (h it hit)⟩
    · have hget := getopt_ok hrun hunknown
      constructor
      · rintro ⟨-, hfaulty, hfine⟩
        have hnone : ¬∃ it ∈ items defs args, it.Faulty := by
          intro h
          obtain ⟨err, herr⟩ := hfaulty h
          cases hget.symm.trans herr
        obtain ⟨opt', hok, hrec⟩ := hfine fun it hit hbad => hnone ⟨it, hit, hbad⟩
        obtain rfl := (Prod.mk.inj (Except.ok.inj (hget.symm.trans hok))).1
        exact ⟨hcounts.mp hs, fun h => absurd h hnone, fun _ => hrecorded.mp hrec⟩
      · intro h
        refine ⟨items_texts defs args, fun hfaulty => ?_, fun hfine =>
          ⟨opt, hget, hrecorded.mpr (h.values hfine)⟩⟩
        obtain ⟨front, it, back, heq, hdash | hlost⟩ := h.found hfaulty
        · exact absurd ⟨it, heq ▸ List.mem_append_right front List.mem_cons_self, hdash⟩ hunknown
        · exact absurd ⟨front, it, back, heq, hlost⟩ hmiss

/-- Numbers without a sign. -/
def plainNumbers : Numbers Nat :=
  ⟨fun s => if s ≠ [] ∧ s.all Char.isDigit then some (Nat.ofDigitChars 10 s 0) else none, (· + 1)⟩

/-- An option with a required argument. -/
def requiring : Def Nat := ⟨['o'], .string ['-', 'o'], none, .required, .none⟩

/-- At the end of the arguments it is no error that the argument is missing. -/
theorem missing_unnoticed :
    (∃ opt, getopt plainNumbers [requiring] [['-', 'o']] = .ok (opt, []) ∧ opt ['o'] = none) ∧
    ¬Accounts plainNumbers [requiring] [['-', 'o']] := by
  have hget : getopt plainNumbers [requiring] [['-', 'o']] =
      .ok (Function.update (fun _ => none) ['o'] none, []) := rfl
  refine ⟨⟨_, hget, rfl⟩, ?_⟩
  rintro ⟨-, hfaulty, -⟩
  have hitems : items [requiring] [['-', 'o']] = [.option requiring ['-', 'o'] none] := rfl
  obtain ⟨err, herr⟩ :=
    hfaulty ⟨.option requiring ['-', 'o'] none, by rw [hitems]; exact .head _, .inr ⟨rfl, rfl⟩⟩
  cases hget.symm.trans herr

end Condition

end T2SDE.Getopt
