import T2SDE.Lib.Text

namespace Xargs

open Text

/-- Where `xargs` stands in its input. -/
inductive Mode
  | space
  | word
  | quote (c : Char)
  | escape

def blank (c : Char) : Bool := c == ' ' || c == '\t'

def space (c : Char) : Bool := blank c || (10 ≤ c.toNat && c.toNat ≤ 13)

/-- The arguments that are passed on, with what is read so far of the next one. A quotation
that is open at the end of a line ends the input; the arguments in front of it are still used. -/
def args : Mode → Str → Str → List Str
  | .space, _, [] => []
  | .word, arg, [] => [arg]
  | .quote _, _, [] => []
  | .escape, arg, [] => [arg]
  | .space, _, c :: s =>
    if space c then args .space [] s
    else if c = '\\' then args .escape [] s
    else if c = '"' ∨ c = '\'' then args (.quote c) [] s
    else args .word [c] s
  | .word, arg, c :: s =>
    if blank c ∨ c = '\n' then arg :: args .space [] s
    else if c = '\\' then args .escape arg s
    else if c = '"' ∨ c = '\'' then args (.quote c) arg s
    else args .word (arg ++ [c]) s
  | .quote q, arg, c :: s =>
    if c = '\n' then []
    else if c = q then args .word arg s
    else args (.quote q) (arg ++ [c]) s
  | .escape, arg, c :: s => args .word (arg ++ [c]) s

attribute [grind =] args

def xargs (input : Str) : List Str := args .space [] input

/-- A line between double quotes. -/
def quoted (line : Str) : Str := '"' :: line ++ ['"', '\n']

section Quoted

variable {line rest arg : Str}

theorem args_inside (hquote : '"' ∉ line) (hline : '\n' ∉ line) :
    args (.quote '"') arg (line ++ '"' :: rest) = args .word (arg ++ line) rest := by
  induction line generalizing arg with
  | nil => simp [args]
  | cons c line ih =>
    have hc : c ≠ '"' ∧ c ≠ '\n' := ⟨fun h => hquote (by simp [h]), fun h => hline (by simp [h])⟩
    rw [List.cons_append, args, if_neg hc.2, if_neg hc.1,
      ih (fun h => hquote (List.mem_cons_of_mem c h)) (fun h => hline (List.mem_cons_of_mem c h))]
    simp

theorem xargs_quoted (hquote : '"' ∉ line) (hline : '\n' ∉ line) (rest : Str) :
    xargs (quoted line ++ rest) = line :: xargs rest := by
  have hopen : xargs (quoted line ++ rest) = args (.quote '"') [] (line ++ '"' :: '\n' :: rest) := by
    simp [xargs, quoted, args, space, blank]
  rw [hopen, args_inside hquote hline]
  simp [args, xargs]

/-- Lines without quotes are passed on as they are. -/
theorem xargs_lines {lines : List Str} (hquote : ∀ l ∈ lines, '"' ∉ l) (hline : ∀ l ∈ lines, '\n' ∉ l) :
    xargs (lines.flatMap quoted) = lines := by
  induction lines with
  | nil => rfl
  | cons l lines ih =>
    rw [List.flatMap_cons, xargs_quoted (hquote l List.mem_cons_self) (hline l List.mem_cons_self),
      ih (fun x hx => hquote x (List.mem_cons_of_mem l hx)) (fun x hx => hline x (List.mem_cons_of_mem l hx))]

theorem args_word (hword : ∀ c ∈ line, blank c = false ∧ c ∉ ['\n', '\\', '"', '\'']) :
    args .word arg (line ++ '\n' :: rest) = (arg ++ line) :: xargs rest := by
  induction line generalizing arg with
  | nil => simp [args, xargs]
  | cons c line ih =>
    obtain ⟨hblank, hc⟩ := hword c List.mem_cons_self
    simp only [List.mem_cons, List.not_mem_nil, or_false, not_or] at hc
    rw [List.cons_append, args, if_neg (by simp [hblank, hc.1]), if_neg hc.2.1, if_neg (by simp [hc.2.2]),
      ih fun d hd => hword d (List.mem_cons_of_mem c hd)]
    simp

/-- Words are passed on as they are. -/
theorem xargs_words {words : List Str} (hfirst : ∀ w ∈ words, ∃ c s, w = c :: s ∧ space c = false)
    (hword : ∀ w ∈ words, ∀ c ∈ w, blank c = false ∧ c ∉ ['\n', '\\', '"', '\'']) :
    xargs (words.flatMap (· ++ ['\n'])) = words := by
  induction words with
  | nil => rfl
  | cons w words ih =>
    obtain ⟨c, s, rfl, hspace⟩ := hfirst w List.mem_cons_self
    have hw := hword _ List.mem_cons_self
    have hc := (hw c List.mem_cons_self).2
    simp only [List.mem_cons, List.not_mem_nil, or_false, not_or] at hc
    rw [List.flatMap_cons, List.append_assoc, List.singleton_append, List.cons_append, xargs, args,
      if_neg (by simp [hspace]), if_neg hc.2.1, if_neg (by simp [hc.2.2]),
      args_word (fun d hd => hw d (List.mem_cons_of_mem c hd)),
      ih (fun x hx => hfirst x (List.mem_cons_of_mem _ hx)) (fun x hx => hword x (List.mem_cons_of_mem _ hx)),
      List.singleton_append]

/-- The number of characters that an argument may get from the rest of a line. -/
def Mode.room : Mode → Nat
  | .escape => 1
  | _ => 0

/-- No argument that ends in a line is longer than what is read, or the input ends there. -/
theorem args_short (hline : '\n' ∉ line) (mode : Mode) (arg rest : Str) :
    ∃ as, (∀ a ∈ as, a.length ≤ arg.length + line.length + mode.room) ∧
      (args mode arg (line ++ '"' :: '\n' :: rest) = as ∨
        args mode arg (line ++ '"' :: '\n' :: rest) = as ++ xargs rest) := by
  induction line generalizing mode arg with
  | nil =>
    cases mode with
    | space => exact ⟨[], by simp, Or.inl (by simp [args, space, blank])⟩
    | word => exact ⟨[], by simp, Or.inl (by simp [args, blank])⟩
    | quote q =>
      by_cases hq : '"' = q
      · subst hq
        exact ⟨[arg], by simp, Or.inr (by simp [args, xargs])⟩
      · exact ⟨[], by simp, Or.inl (by simp [args, hq])⟩
    | escape => exact ⟨[arg ++ ['"']], by simp [Mode.room], Or.inr (by simp [args, xargs])⟩
  | cons c line ih =>
    have hc : c ≠ '\n' := fun h => hline (by simp [h])
    have ih := fun mode arg => ih (fun h => hline (List.mem_cons_of_mem c h)) mode arg
    -- the next character leads to another state with no more room
    have hnext : ∀ (mode' : Mode) (arg' : Str) {mode : Mode} {arg : Str},
        args mode arg (c :: line ++ '"' :: '\n' :: rest) = args mode' arg' (line ++ '"' :: '\n' :: rest) →
        arg'.length + mode'.room ≤ arg.length + 1 + mode.room →
        ∃ as, (∀ a ∈ as, a.length ≤ arg.length + (c :: line).length + mode.room) ∧
          (args mode arg (c :: line ++ '"' :: '\n' :: rest) = as ∨
            args mode arg (c :: line ++ '"' :: '\n' :: rest) = as ++ xargs rest) := by
      intro mode' arg' mode arg hstep hroom
      obtain ⟨as, hlen, hargs⟩ := ih mode' arg'
      refine ⟨as, fun a ha => ?_, by rw [hstep]; exact hargs⟩
      have := hlen a ha
      rw [List.length_cons]
      omega
    cases mode with
    | space =>
      by_cases hs : space c = true
      · exact hnext .space [] (by simp [args, hs]) (by simp [Mode.room])
      · by_cases hb : c = '\\'
        · exact hnext .escape [] (by simp [args, hb, space, blank]) (by simp [Mode.room])
        · by_cases hq : c = '"' ∨ c = '\''
          · exact hnext (.quote c) [] (by simp [args, hs, hb, hq]) (by simp [Mode.room])
          · exact hnext .word [c] (by simp [args, hs, hb, hq]) (by simp [Mode.room])
    | word =>
      by_cases hs : blank c = true
      · obtain ⟨as, hlen, hargs⟩ := ih .space []
        have hstep : args .word arg (c :: line ++ '"' :: '\n' :: rest) =
            arg :: args .space [] (line ++ '"' :: '\n' :: rest) := by simp [args, hs]
        refine ⟨arg :: as, ?_, ?_⟩
        · intro a ha
          rcases List.mem_cons.mp ha with rfl | ha
          · simp only [List.length_cons]
            omega
          · have := hlen a ha
            simp only [List.length_cons, List.length_nil, Mode.room] at this ⊢
            omega
        · rw [hstep]
          exact hargs.imp (fun h => by rw [h]) (fun h => by rw [h, List.cons_append])
      · by_cases hb : c = '\\'
        · exact hnext .escape arg (by simp [args, hb, blank]) (by simp [Mode.room])
        · by_cases hq : c = '"' ∨ c = '\''
          · exact hnext (.quote c) arg (by simp [args, hs, hb, hq, hc]) (by simp [Mode.room])
          · exact hnext .word (arg ++ [c]) (by simp [args, hs, hb, hq, hc])
              (by simp [Mode.room])
    | quote q =>
      by_cases hq : c = q
      · exact hnext .word arg (by simp [args, hq, hq ▸ hc]) (by simp [Mode.room])
      · exact hnext (.quote q) (arg ++ [c]) (by simp [args, hq, hc]) (by simp [Mode.room])
    | escape => exact hnext .word (arg ++ [c]) (by simp [args]) (by simp [Mode.room])

/-- Every argument that a line with a quote in it gives is shorter than the line. -/
theorem quoted_short (hquote : '"' ∈ line) (hline : '\n' ∉ line) (rest : Str) :
    ∃ as, (∀ a ∈ as, a.length < line.length) ∧
      (xargs (quoted line ++ rest) = as ∨ xargs (quoted line ++ rest) = as ++ xargs rest) := by
  obtain ⟨u, v, rfl, hu⟩ := List.eq_append_cons_of_mem hquote
  have hline' : '\n' ∉ u ∧ '\n' ∉ v :=
    ⟨fun h => hline (List.mem_append_left _ h), fun h => hline (by simp [h])⟩
  -- the quotation ends in front of the end of the line
  have hopen : xargs (quoted (u ++ '"' :: v) ++ rest) = args .word u (v ++ '"' :: '\n' :: rest) := by
    have hstart : xargs (quoted (u ++ '"' :: v) ++ rest) =
        args (.quote '"') [] (u ++ '"' :: (v ++ '"' :: '\n' :: rest)) := by
      simp [xargs, quoted, args, space, blank]
    rw [hstart, args_inside hu hline'.1, List.nil_append]
  obtain ⟨as, hlen, hargs⟩ := args_short hline'.2 .word u rest
  rw [hopen]
  refine ⟨as, fun a ha => ?_, hargs⟩
  have := hlen a ha
  simp only [Mode.room, List.length_append, List.length_cons] at this ⊢
  omega

theorem not_mem_xargs (hquote : '"' ∈ line) (hline : '\n' ∉ line) (n : Nat) :
    line ∉ xargs ((List.replicate n line).flatMap quoted) := by
  induction n with
  | zero => simp [xargs, args]
  | succ n ih =>
    obtain ⟨as, hlen, hargs⟩ := quoted_short hquote hline ((List.replicate n line).flatMap quoted)
    have hno : line ∉ as := fun h => absurd (hlen line h) (lt_irrefl _)
    rw [List.replicate_succ, List.flatMap_cons]
    rcases hargs with hargs | hargs
    · rw [hargs]
      exact hno
    · rw [hargs, List.mem_append, not_or]
      exact ⟨hno, ih⟩

end Quoted

end Xargs
