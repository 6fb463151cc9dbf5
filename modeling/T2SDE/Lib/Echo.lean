import T2SDE.Lib.AnsiQuote
import T2SDE.Lib.ShellWord

namespace Echo

open Text AnsiQuote CString ShellWord

/-- The characters that a backslash and one letter stand for. -/
def simpleEscapes : List (Char × Char) := [
  ('a', '\x07'), ('b', '\x08'), ('e', '\x1b'), ('E', '\x1b'), ('f', '\x0c'), ('n', '\n'),
  ('r', '\r'), ('t', '\t'), ('v', '\x0b'), ('\\', '\\')]

/-- What is written for a backslash with the text behind it, and the text that is left; `\c` ends
all of it. -/
def escape : Str → Option (Str × Str)
  | [] => some (['\\'], [])
  | c :: s =>
    if c = 'c' then none
    else if (simpleEscapes.lookup c).isSome then some ([(simpleEscapes.lookup c).getD c], s)
    else if c = '0' then some ([byte (number octDigit 8 3 0 s).1], (number octDigit 8 3 0 s).2)
    else if c = 'x' then
      if (s.head?.bind hexDigit).isSome then some ([byte (number hexDigit 16 2 0 s).1],
      (number hexDigit 16 2 0 s).2)
      else some (['\\', 'x'], s)
    else if c = 'u' then some (escapeCode 'u' 4 s)
    else if c = 'U' then some (escapeCode 'U' 8 s)
    else some (['\\', c], s)

/-- An argument with its escapes interpreted, and whether one of them was `\c`. -/
def interpret : Nat → Str → Str × Bool
  | 0, _ => ([], false)
  | _ + 1, [] => ([], false)
  | fuel + 1, c :: s =>
    if c = '\\' then
      match escape s with
      | none => ([], true)
      | some (out, rest) => (out ++ (interpret fuel rest).1, (interpret fuel rest).2)
    else (c :: (interpret fuel s).1, (interpret fuel s).2)

def interpreted (s : Str) : Str × Bool := interpret s.length s

/-- `echo -e` -/
def echo : List Str → Str
  | [] => ['\n']
  | arg :: args =>
    (interpreted arg).1 ++ if (interpreted arg).2 then [] else if args = [] then ['\n'] else ' ' :: echo args

/-- Whether `echo` takes an argument for options. -/
def isOption : Str → Bool
  | '-' :: c :: s => (c :: s).all fun d => d == 'n' || d == 'e' || d == 'E'
  | _ => false

/-- `echo` with one argument -/
def plainEcho (s : Str) : Str := if isOption s then if 'n' ∈ s then [] else ['\n'] else s ++ ['\n']

/-- Whether a backslash before this text starts an escape that is interpreted. -/
def active : Str → Bool
  | [] => false
  | c :: s =>
    c == 'c' || c == '0' || (simpleEscapes.lookup c).isSome ||
      ((c == 'x' || c == 'u' || c == 'U') && (s.head?.bind hexDigit).isSome)

/-- Whether no escape in a text is interpreted. -/
def inert : Str → Bool
  | [] => true
  | c :: s => !(c == '\\' && active s) && inert s

section Inert

variable {s t : Str} {c : Char} {fuel : Nat}

theorem escape_inactive (h : active (c :: s) = false) : escape (c :: s) = some (['\\', c], s) := by
  simp only [active, Bool.or_eq_false_iff, beq_eq_false_iff_ne] at h
  obtain ⟨⟨⟨hc, h0⟩, hsimple⟩, hhex⟩ := h
  rw [escape, if_neg hc, if_neg (by simp [hsimple]), if_neg h0]
  split
  next hx =>
    subst hx
    rw [if_neg (by simpa using hhex)]
  next =>
    split
    next hu =>
      subst hu
      rw [escapeCode, if_neg (by simpa using hhex)]
    next =>
      split
      next hU =>
        subst hU
        rw [escapeCode, if_neg (by simpa using hhex)]
      next => rfl

theorem interpret_inert (h : inert s = true) (hfuel : s.length ≤ fuel) : interpret fuel s = (s, false) := by
  induction fuel generalizing s with
  | zero =>
    obtain rfl : s = [] := List.length_eq_zero_iff.mp (Nat.le_zero.mp hfuel)
    rfl
  | succ fuel ih =>
    rcases s with _ | ⟨c, s⟩
    · rfl
    have hlen : s.length ≤ fuel := by simpa using hfuel
    rw [inert, Bool.and_eq_true, Bool.not_eq_true'] at h
    by_cases hc : c = '\\'
    · subst hc
      rcases s with _ | ⟨d, s⟩
      · simp [interpret, escape, ih (s := []) rfl (Nat.zero_le _)]
      · -- the backslash and the character behind it are read together
        have hactive : active (d :: s) = false := by simpa using h.1
        have hrest : inert s = true := by
          have hboth := h.2
          rw [inert, Bool.and_eq_true] at hboth
          exact hboth.2
        have hlen' : s.length ≤ fuel := by
          rw [List.length_cons] at hlen
          omega
        rw [interpret, if_pos rfl, escape_inactive hactive]
        simp [ih hrest hlen']
    · rw [interpret, if_neg hc, ih h.2 hlen]

theorem echo_inert (h : inert s = true) : echo [s] = s ++ ['\n'] := by
  simp [echo, interpreted, interpret_inert h (Nat.le_refl _)]

theorem inert_append {a : Str} (ha : '\\' ∉ a) (s : Str) : inert (a ++ s) = inert s := by
  induction a with
  | nil => rfl
  | cons c a ih =>
    have hc : c ≠ '\\' := fun h => ha (by simp [h])
    rw [List.cons_append, inert, ih fun h => ha (by simp [h])]
    simp [hc]

theorem inert_plain (h : '\\' ∉ s) : inert s = true := by
  have hinert := inert_append h []
  rwa [List.append_nil] at hinert

theorem active_quote (v s : Str) : active (quote v ++ '\'' :: s) = active v := by
  have hclosed : ∀ s, active ('\'' :: s) = false := fun s => by simp [active, simpleEscapes, List.lookup_cons]
  rcases v with _ | ⟨c, v⟩
  · exact hclosed s
  have hhead : ((quote v ++ '\'' :: s).head?.bind hexDigit).isSome = (v.head?.bind hexDigit).isSome := by
    rcases v with _ | ⟨d, v⟩
    · rfl
    · rw [quote_cons]
      split
      next hd =>
        subst hd
        rfl
      next => rfl
  rw [quote_cons]
  split
  next hc =>
    subst hc
    exact (hclosed _).trans (hclosed v).symm
  next =>
    show active (c :: (quote v ++ '\'' :: s)) = active (c :: v)
    rw [active, active, hhead]

/-- Quoting a text does not change which of its escapes are interpreted. -/
theorem inert_quote (v s : Str) : inert (quote v ++ '\'' :: s) = (inert v && inert s) := by
  induction v with
  | nil => rfl
  | cons c v ih =>
    rw [quote_cons]
    split
    next hc =>
      subst hc
      show inert ('\'' :: '\\' :: '\'' :: '\'' :: (quote v ++ '\'' :: s)) = (inert ('\'' :: v) && inert s)
      simp [inert, active, simpleEscapes, List.lookup_cons, ih]
    next =>
      show inert (c :: (quote v ++ '\'' :: s)) = (inert (c :: v) && inert s)
      rw [inert, inert, active_quote, ih, Bool.and_assoc]

end Inert

section Weight

variable {s out rest : Str} {c : Char} {fuel : Nat}

theorem weight_of_digits {ds : Str} (h : ∀ c ∈ ds, (hexDigit c).isSome) : weight ds = ds.length := by
  refine weight_eq_length (fun hmem => ?_) fun hmem => ?_
  · exact absurd (h _ hmem) (by decide)
  · exact absurd (h _ hmem) (by decide)

theorem weight_number {digit : Char → Option Nat} {base : Nat}
    (hbase : ∀ c d, digit c = some d → d < base) (n v : Nat)
    (s : Str) : weight (number digit base n v s).2 ≤ weight s := by
  obtain ⟨ds, hs, -⟩ := number_split hbase n v s
  have hweight := congrArg weight hs
  rw [weight_append] at hweight
  omega

theorem weight_escapeCode (n : Nat) (hn : n ≤ 8) (h : (s.head?.bind hexDigit).isSome) :
    weight (escapeCode c n s).1 + weight (escapeCode c n s).2 ≤ weight s + 1 := by
  obtain ⟨ds, hs, hdigits, hlen, hlt, -⟩ := number_split hexDigit_lt n 0 s
  rw [escapeCode, if_pos h]
  have hout : (utf8 (number hexDigit 16 n 0 s).1).length ≤ ds.length + 1 :=
    length_utf8 (hlen.trans hn) (by simpa using hlt)
  have hweight := congrArg weight hs
  rw [weight_append, weight_of_digits hdigits] at hweight
  have := weight_le_length (utf8 (number hexDigit 16 n 0 s).1)
  dsimp only
  omega

theorem active_weighs (h : active (c :: s) = true) : c ≠ '\'' ∧ c ≠ '\n' := by
  constructor
  · rintro rfl
    simp [active, simpleEscapes, List.lookup_cons] at h
  · rintro rfl
    simp [active, simpleEscapes, List.lookup_cons] at h

theorem length_escape_rest (hescape : escape s = some (out, rest)) : rest.length ≤ s.length := by
  rcases s with _ | ⟨c, s⟩
  · obtain ⟨rfl, rfl⟩ := Prod.mk.inj (Option.some.inj hescape)
    exact Nat.le_refl _
  refine Nat.le_succ_of_le ?_
  rw [escape] at hescape
  split at hescape
  next => exact absurd hescape (by simp)
  split at hescape
  next => exact (congrArg (List.length ∘ Prod.snd) (Option.some.inj hescape)).ge
  split at hescape
  next =>
    exact (congrArg (List.length ∘ Prod.snd) (Option.some.inj hescape)).ge.trans
      (length_number octDigit_lt 3 0 s)
  split at hescape
  next =>
    split at hescape
    next =>
      exact (congrArg (List.length ∘ Prod.snd) (Option.some.inj hescape)).ge.trans
        (length_number hexDigit_lt 2 0 s)
    next => exact (congrArg (List.length ∘ Prod.snd) (Option.some.inj hescape)).ge
  split at hescape
  next =>
    exact (congrArg (List.length ∘ Prod.snd) (Option.some.inj hescape)).ge.trans (length_escapeCode 'u' 4 s)
  split at hescape
  next =>
    exact (congrArg (List.length ∘ Prod.snd) (Option.some.inj hescape)).ge.trans (length_escapeCode 'U' 8 s)
  next => exact (congrArg (List.length ∘ Prod.snd) (Option.some.inj hescape)).ge

/-- An escape that is interpreted writes less than it takes. -/
theorem weight_escape_active (h : active (c :: s) = true) (hescape : escape (c :: s) = some (out, rest)) :
    weight out + weight rest ≤ weight (c :: s) := by
  have hone : ∀ d : Char, weight [d] ≤ 1 := fun d => weight_le_length [d]
  have hhex : (c = 'x' ∨ c = 'u' ∨ c = 'U') → c ≠ 'c' ∧ c ≠ '0' ∧ (s.head?.bind hexDigit).isSome = true := by
    rintro (rfl | rfl | rfl)
    all_goals
      refine ⟨by decide, by decide, ?_⟩
      simpa [active, simpleEscapes, List.lookup_cons] using h
  rw [weight_cons (active_weighs h)]
  rw [escape] at hescape
  split at hescape
  next => exact absurd hescape (by simp)
  split at hescape
  next =>
    obtain ⟨rfl, rfl⟩ := Prod.mk.inj (Option.some.inj hescape)
    have := hone ((simpleEscapes.lookup c).getD c)
    omega
  split at hescape
  next =>
    obtain ⟨rfl, rfl⟩ := Prod.mk.inj (Option.some.inj hescape)
    have := hone (byte (number octDigit 8 3 0 s).1)
    have := weight_number octDigit_lt 3 0 s
    omega
  split at hescape
  next hx =>
    rw [if_pos (hhex (.inl hx)).2.2] at hescape
    obtain ⟨rfl, rfl⟩ := Prod.mk.inj (Option.some.inj hescape)
    have := hone (byte (number hexDigit 16 2 0 s).1)
    have := weight_number hexDigit_lt 2 0 s
    omega
  split at hescape
  next hu =>
    obtain ⟨rfl, rfl⟩ := Prod.mk.inj (Option.some.inj hescape)
    exact weight_escapeCode 4 (by decide) (hhex (.inr (.inl hu))).2.2
  split at hescape
  next hU =>
    obtain ⟨rfl, rfl⟩ := Prod.mk.inj (Option.some.inj hescape)
    exact weight_escapeCode 8 (by decide) (hhex (.inr (.inr hU))).2.2
  next hc hsimple h0 hx hu hU => exact absurd h (by simp [active, hc, hsimple, h0, hx, hu, hU])

theorem weight_escape (hescape : escape s = some (out, rest)) : weight out + weight rest ≤ weight s + 1 := by
  rcases s with _ | ⟨c, s⟩
  · obtain ⟨rfl, rfl⟩ := Prod.mk.inj (Option.some.inj hescape)
    decide
  cases hactive : active (c :: s) with
  | true => exact (weight_escape_active hactive hescape).trans (Nat.le_succ _)
  | false =>
    rw [escape_inactive hactive] at hescape
    obtain ⟨rfl, rfl⟩ := Prod.mk.inj (Option.some.inj hescape)
    have hout := weight_append ['\\', c] s
    have hbackslash := weight_cons (c := '\\') (by decide) (c :: s)
    have htext : ['\\', c] ++ s = '\\' :: c :: s := rfl
    rw [htext] at hout
    omega

theorem weight_interpret (fuel : Nat) (s : Str) : weight (interpret fuel s).1 ≤ weight s := by
  induction fuel generalizing s with
  | zero => exact Nat.zero_le _
  | succ fuel ih =>
    rcases s with _ | ⟨c, s⟩
    · exact Nat.le_refl _
    rw [interpret]
    split
    next hc =>
      subst hc
      rw [weight_cons (by decide)]
      split
      next => exact Nat.zero_le _
      next out rest hescape =>
        have := weight_escape hescape
        have := ih rest
        rw [weight_append]
        omega
    next =>
      show weight (c :: (interpret fuel s).1) ≤ weight (c :: s)
      rw [weight_head, weight_head c s]
      exact Nat.add_le_add_left (ih s) _

theorem weight_interpret_lt (h : inert s = false) (hfuel : s.length ≤ fuel) :
    weight (interpret fuel s).1 < weight s := by
  induction fuel generalizing s with
  | zero =>
    obtain rfl : s = [] := List.length_eq_zero_iff.mp (Nat.le_zero.mp hfuel)
    exact absurd h (by decide)
  | succ fuel ih =>
    rcases s with _ | ⟨c, s⟩
    · exact absurd h (by decide)
    have hlen : s.length ≤ fuel := by simpa using hfuel
    rw [interpret]
    split
    next hc =>
      subst hc
      rw [weight_cons (by decide)]
      rcases s with _ | ⟨d, s⟩
      · exact absurd h (by decide)
      cases hactive : active (d :: s) with
      | true =>
        split
        next => exact Nat.succ_pos _
        next out rest hescape =>
          have := weight_escape_active hactive hescape
          have := weight_interpret fuel rest
          rw [weight_append]
          omega
      | false =>
        have hd : d ≠ '\\' := by
          rintro rfl
          exact absurd hactive (by simp [active, simpleEscapes, List.lookup_cons])
        have htail : inert s = false := by simpa [inert, hactive, hd] using h
        have hlen' : s.length ≤ fuel := by
          rw [List.length_cons] at hlen
          omega
        have := ih htail hlen'
        rw [escape_inactive hactive]
        show weight ('\\' :: d :: (interpret fuel s).1) < _
        rw [weight_cons (by decide), weight_head, weight_head d s]
        omega
    next hc =>
      have htail : inert s = false := by simpa [inert, hc] using h
      show weight (c :: (interpret fuel s).1) < weight (c :: s)
      rw [weight_head, weight_head c s]
      exact Nat.add_lt_add_left (ih htail hlen) _

end Weight

section Interpreted

variable {s a : Str} {c d : Char} {m n : Nat}

theorem interpret_fuel (hm : s.length ≤ m) (hn : s.length ≤ n) : interpret m s = interpret n s := by
  induction m generalizing s n with
  | zero =>
    obtain rfl : s = [] := List.length_eq_zero_iff.mp (Nat.le_zero.mp hm)
    cases n with
    | zero => rfl
    | succ n => rfl
  | succ m ih =>
    rcases s with _ | ⟨c, s⟩
    · cases n with
      | zero => rfl
      | succ n => rfl
    rw [List.length_cons] at hm hn
    obtain ⟨n, rfl⟩ : ∃ k, n = k + 1 := ⟨n - 1, by omega⟩
    rw [interpret, interpret, ih (by omega : s.length ≤ m) (by omega : s.length ≤ n)]
    split
    next =>
      cases hescape : escape s with
      | none => rfl
      | some found =>
        have := length_escape_rest hescape
        dsimp only
        rw [ih (by omega : found.2.length ≤ m) (by omega : found.2.length ≤ n)]
    next => rfl

theorem interpreted_cons (hc : c ≠ '\\') (s : Str) :
    interpreted (c :: s) = (c :: (interpreted s).1, (interpreted s).2) := by
  rw [interpreted, List.length_cons, interpret, if_neg hc]
  rfl

theorem interpreted_append (ha : '\\' ∉ a) (s : Str) :
    interpreted (a ++ s) = (a ++ (interpreted s).1, (interpreted s).2) := by
  induction a with
  | nil => rfl
  | cons c a ih =>
    rw [List.mem_cons, not_or] at ha
    rw [List.cons_append, interpreted_cons (Ne.symm ha.1), ih ha.2]
    rfl

theorem interpreted_letter (hc : c ≠ 'c') (hlookup : simpleEscapes.lookup c = some d) (s : Str) :
    interpreted ('\\' :: c :: s) = (d :: (interpreted s).1, (interpreted s).2) := by
  have hescape : escape (c :: s) = some ([d], s) := by simp [escape, hc, hlookup]
  rw [interpreted, List.length_cons, List.length_cons, interpret, if_pos rfl, hescape]
  dsimp only
  rw [interpret_fuel (Nat.le_succ s.length) (Nat.le_refl _)]
  rfl

theorem interpreted_inert (h : inert s = true) : interpreted s = (s, false) :=
  interpret_inert h (Nat.le_refl _)

theorem weight_interpreted (s : Str) : weight (interpreted s).1 ≤ weight s := weight_interpret s.length s

theorem weight_interpreted_lt (h : inert s = false) : weight (interpreted s).1 < weight s :=
  weight_interpret_lt h (Nat.le_refl _)

theorem echo_single (s : Str) : echo [s] = (interpreted s).1 ++ if (interpreted s).2 then [] else ['\n'] := by
  simp [echo]

theorem weight_echo (s : Str) : weight (echo [s]) = weight (interpreted s).1 := by
  rw [echo_single, weight_append]
  split
  next => rfl
  next => rfl

end Interpreted

end Echo
