import Mathlib.Data.List.Basic
import Mathlib.Data.List.Infix

namespace Text

/-- Text is a list of characters; C strings, shell words and lines are such lists. -/
abbrev Str := List Char

instance : LawfulBEq Str := inferInstance

section Tokens

variable {α : Type}

/-- Put a word in front of the words after it, unless it is empty. -/
def consWord : List α → List (List α) → List (List α)
  | [], ws => ws
  | c :: w, ws => (c :: w) :: ws

/-- The word at the start of the text and the words behind the first separator. -/
def tokensAux (sep : α → Bool) : List α → List α × List (List α)
  | [] => ([], [])
  | c :: s =>
    if sep c then ([], consWord (tokensAux sep s).1 (tokensAux sep s).2)
    else (c :: (tokensAux sep s).1, (tokensAux sep s).2)

attribute [grind =] consWord tokensAux

/-- The maximal non-empty separator-free pieces of a text, in order. -/
def tokens (sep : α → Bool) (s : List α) : List (List α) :=
  consWord (tokensAux sep s).1 (tokensAux sep s).2

variable {sep : α → Bool}

@[simp] theorem tokens_nil : tokens sep [] = [] := rfl

theorem tokens_cons_sep {d : α} (hd : sep d = true) (s : List α) :
    tokens sep (d :: s) = tokens sep s := by
  simp [tokens, tokensAux, hd, consWord]

theorem consWord_append (w : List α) (xs ys : List (List α)) :
    consWord w (xs ++ ys) = consWord w xs ++ ys := by
  cases w <;> rfl

theorem tokensAux_append_sep {d : α} (hd : sep d = true) (a b : List α) :
    tokensAux sep (a ++ d :: b) =
      ((tokensAux sep a).1, (tokensAux sep a).2 ++ tokens sep b) := by
  induction a with
  | nil => simp [tokensAux, hd, tokens]
  | cons c a ih =>
    by_cases hc : sep c = true
    · simp [tokensAux, hc, ih, consWord_append]
    · simp [tokensAux, hc, ih]

theorem tokens_append_sep {d : α} (hd : sep d = true) (a b : List α) :
    tokens sep (a ++ d :: b) = tokens sep a ++ tokens sep b := by
  unfold tokens
  rw [tokensAux_append_sep hd, consWord_append]
  rfl

theorem tokensAux_free {w : List α} (hw : ∀ c ∈ w, sep c = false) :
    tokensAux sep w = (w, []) := by
  induction w with
  | nil => rfl
  | cons c w ih =>
    have hc := hw c (by simp)
    simp [tokensAux, hc, ih (fun x hx => hw x (by simp [hx]))]

theorem tokens_free {w : List α} (hw : ∀ c ∈ w, sep c = false) :
    tokens sep w = consWord w [] := by
  simp [tokens, tokensAux_free hw]

theorem tokens_word {w : List α} (hne : w ≠ []) (hw : ∀ c ∈ w, sep c = false) :
    tokens sep w = [w] := by
  rw [tokens_free hw]
  cases w with
  | nil => exact absurd rfl hne
  | cons c w => rfl

theorem tokensAux_spec (sep : α → Bool) (s : List α) :
    (∀ c ∈ (tokensAux sep s).1, sep c = false) ∧
      ∀ w ∈ (tokensAux sep s).2, w ≠ [] ∧ ∀ c ∈ w, sep c = false := by
  induction s with
  | nil => simp [tokensAux]
  | cons c s ih =>
    by_cases hc : sep c = true
    · refine ⟨by simp [tokensAux, hc], ?_⟩
      intro w hw
      simp only [tokensAux, hc, if_true] at hw
      cases hf : (tokensAux sep s).1 with
      | nil => exact ih.2 w (by simpa [hf, consWord] using hw)
      | cons x xs =>
        rw [hf] at hw ih
        rcases List.mem_cons.mp hw with rfl | hw
        · exact ⟨by simp, ih.1⟩
        · exact ih.2 w hw
    · have hc' : sep c = false := by simpa using hc
      refine ⟨?_, by simpa [tokensAux, hc'] using ih.2⟩
      intro x hx
      simp only [tokensAux, hc', Bool.false_eq_true, if_false, List.mem_cons] at hx
      rcases hx with rfl | hx
      · exact hc'
      · exact ih.1 x hx

theorem mem_tokens {s w : List α} (h : w ∈ tokens sep s) :
    w ≠ [] ∧ ∀ c ∈ w, sep c = false := by
  have hs := tokensAux_spec sep s
  unfold tokens at h
  cases hf : (tokensAux sep s).1 with
  | nil => exact hs.2 w (by simpa [hf, consWord] using h)
  | cons x xs =>
    rw [hf] at h hs
    rcases List.mem_cons.mp h with rfl | h
    · exact ⟨by simp, hs.1⟩
    · exact hs.2 w h

theorem tokens_append_left {seps : List α} (h : ∀ c ∈ seps, sep c = true) (s : List α) :
    tokens sep (seps ++ s) = tokens sep s := by
  induction seps with
  | nil => rfl
  | cons c seps ih =>
    rw [List.cons_append, tokens_cons_sep (h c (by simp)), ih fun x hx => h x (by simp [hx])]

/-- How a text is made of its tokens. -/
inductive TokenView (sep : α → Bool) : List α → List (List α) → Prop
  | blank {s : List α} : (∀ c ∈ s, sep c = true) → TokenView sep s []
  | last {seps tok : List α} : (∀ c ∈ seps, sep c = true) → tok ≠ [] →
      (∀ c ∈ tok, sep c = false) → TokenView sep (seps ++ tok) [tok]
  | next {seps tok rest : List α} {d : α} {ws : List (List α)} : (∀ c ∈ seps, sep c = true) →
      tok ≠ [] → (∀ c ∈ tok, sep c = false) → sep d = true → TokenView sep rest ws →
      TokenView sep (seps ++ (tok ++ d :: rest)) (tok :: ws)

theorem exists_run (p : α → Bool) (s : List α) :
    ∃ a b, s = a ++ b ∧ (∀ c ∈ a, p c = true) ∧ ∀ d t, b = d :: t → p d = false := by
  induction s with
  | nil => exact ⟨[], [], rfl, by simp, by simp⟩
  | cons c s ih =>
    cases hc : p c with
    | false =>
      refine ⟨[], c :: s, rfl, by simp, ?_⟩
      intro d t h
      cases h
      exact hc
    | true =>
      obtain ⟨a, b, rfl, ha, hb⟩ := ih
      refine ⟨c :: a, b, rfl, ?_, hb⟩
      intro x hx
      rcases List.mem_cons.mp hx with rfl | hx
      · exact hc
      · exact ha x hx

theorem tokens_view (sep : α → Bool) (s : List α) : TokenView sep s (tokens sep s) := by
  induction hn : s.length using Nat.strongRecOn generalizing s with
  | _ n ih =>
    obtain ⟨seps, w, rfl, hseps, hw⟩ := exists_run sep s
    rw [tokens_append_left hseps]
    obtain ⟨tok, r, rfl, htok, hr⟩ := exists_run (fun c => !sep c) w
    have htok' : ∀ c ∈ tok, sep c = false := fun c hc => by simpa using htok c hc
    cases tok with
    | nil =>
      cases r with
      | nil => exact .blank (by simpa using hseps)
      | cons d rest =>
        -- the first character behind the separators is and is not one
        have h1 := hw d rest rfl
        have h2 := hr d rest rfl
        simp [h1] at h2
    | cons c tok =>
      cases r with
      | nil =>
        rw [List.append_nil, tokens_word (List.cons_ne_nil c tok) htok']
        exact .last hseps (List.cons_ne_nil c tok) htok'
      | cons d rest =>
        have hd : sep d = true := by simpa using hr d rest rfl
        have hlt : rest.length < n := by
          simp only [List.length_append, List.length_cons] at hn
          omega
        rw [tokens_append_sep hd, tokens_word (List.cons_ne_nil c tok) htok', List.singleton_append]
        exact .next hseps (List.cons_ne_nil c tok) htok' hd (ih rest.length hlt rest rfl)

theorem length_tokens_le {s : List α} {ws : List (List α)} (hv : TokenView sep s ws) :
    ws.length ≤ s.length := by
  induction hv with
  | blank _ => simp
  | @last seps tok _ hne _ =>
    have := List.length_pos_iff.mpr hne
    simp only [List.length_append, List.length_singleton]
    omega
  | @next seps tok rest _ ws _ hne _ _ _ ih =>
    have := List.length_pos_iff.mpr hne
    simp only [List.length_append, List.length_cons]
    omega

/-- The text in front of a separator is determined by what begins with the two. -/
theorem eq_of_prefix_sep {d : α} {u w s t : List α} (hu : d ∉ u) (hw : d ∉ w)
    (h : u ++ d :: s <+: w ++ d :: t) : u = w := by
  induction u generalizing w with
  | nil =>
    cases w with
    | nil => rfl
    | cons c w =>
      rw [List.nil_append, List.cons_append, List.cons_prefix_cons] at h
      exact absurd (by simp [h.1]) hw
  | cons c u ih =>
    cases w with
    | nil =>
      rw [List.cons_append, List.nil_append, List.cons_prefix_cons] at h
      exact absurd (by simp [h.1]) hu
    | cons e w =>
      rw [List.cons_append, List.cons_append, List.cons_prefix_cons] at h
      obtain ⟨rfl, h⟩ := h
      rw [ih (fun hd => hu (List.mem_cons_of_mem c hd)) (fun hd => hw (List.mem_cons_of_mem c hd)) h]

/-- A text is cut at its first separator in one way only. -/
theorem eq_of_append_sep {d : α} {u w s t : List α} (hu : d ∉ u) (hw : d ∉ w)
    (h : u ++ d :: s = w ++ d :: t) :
    u = w ∧ s = t := by
  have huw := eq_of_prefix_sep hu hw (h ▸ List.prefix_rfl : u ++ d :: s <+: w ++ d :: t)
  subst huw
  exact ⟨rfl, (List.cons.inj (List.append_cancel_left h)).2⟩

theorem eq_of_suffix_sep {d : α} {u w s t : List α} (hu : d ∉ u) (hw : d ∉ w)
    (h : s ++ d :: u <:+ t ++ d :: w) : u = w := by
  have hrev := List.reverse_prefix.mpr h
  simp only [List.reverse_append, List.reverse_cons, List.append_assoc, List.singleton_append] at hrev
  exact List.reverse_injective (eq_of_prefix_sep (by simpa using hu) (by simpa using hw) hrev)

/-- Items with a separator in front of each, cut in front of a separator. -/
theorem split_items {d : α} {items : List (List α)} {u s : List α} (hitems : ∀ x ∈ items, d ∉ x)
    (h : items.flatMap (d :: ·) = u ++ d :: s) :
    ∃ l₁ l₂, items = l₁ ++ l₂ ∧ u = l₁.flatMap (d :: ·) ∧ d :: s = l₂.flatMap (d :: ·) := by
  induction items generalizing u with
  | nil => simp at h
  | cons x items ih =>
    cases u with
    | nil => exact ⟨[], x :: items, rfl, rfl, h.symm⟩
    | cons c u =>
      rw [List.flatMap_cons, List.cons_append, List.cons_append] at h
      obtain ⟨rfl, hbehind⟩ := List.cons.inj h
      rcases List.append_eq_append_iff.mp hbehind with ⟨v, rfl, hrest⟩ | ⟨v, hx, hrest⟩
      · obtain ⟨l₁, l₂, rfl, rfl, hs⟩ := ih (fun y hy => hitems y (List.mem_cons_of_mem x hy)) hrest
        exact ⟨x :: l₁, l₂, rfl, rfl, hs⟩
      · cases v with
        | nil =>
          rw [List.append_nil] at hx
          rw [List.nil_append] at hrest
          exact ⟨[x], items, rfl, by simp [hx], hrest⟩
        | cons e v =>
          have hmem : d ∈ x := by
            rw [hx, (List.cons.inj hrest).1]
            exact List.mem_append_right u List.mem_cons_self
          exact absurd hmem (hitems x List.mem_cons_self)

theorem intercalate_cons (d : α) (w v : List α) (ws : List (List α)) :
    [d].intercalate (w :: v :: ws) = w ++ d :: [d].intercalate (v :: ws) := by
  simp [List.intercalate]

theorem intercalate_concat (d : α) {l : List (List α)} (hne : l ≠ []) (w : List α) :
    [d].intercalate (l ++ [w]) = [d].intercalate l ++ d :: w := by
  induction l with
  | nil => exact absurd rfl hne
  | cons v l ih =>
    cases l with
    | nil => simp [List.intercalate]
    | cons u l =>
      have hrest := ih (List.cons_ne_nil u l)
      simp only [List.cons_append] at hrest ⊢
      rw [intercalate_cons, intercalate_cons, hrest, List.append_assoc, List.cons_append]

theorem tokens_intercalate {d : α} (hd : sep d = true) {ws : List (List α)}
    (hws : ∀ w ∈ ws, w ≠ [] ∧ ∀ c ∈ w, sep c = false) : tokens sep ([d].intercalate ws) = ws := by
  induction ws with
  | nil => rfl
  | cons w ws ih =>
    obtain ⟨hne, hfree⟩ := hws w (by simp)
    cases ws with
    | nil => simpa [List.intercalate] using tokens_word hne hfree
    | cons v ws =>
      rw [intercalate_cons, tokens_append_sep hd, tokens_word hne hfree, ih fun x hx => hws x (by simp [hx])]
      rfl

theorem mem_of_view {s : List α} {ws : List (List α)} (hv : TokenView sep s ws) {w : List α}
    (hw : w ∈ ws) {c : α} (hc : c ∈ w) : c ∈ s := by
  induction hv with
  | blank _ => simp at hw
  | last _ _ _ =>
    rw [List.mem_singleton.mp hw] at hc
    simp [hc]
  | next _ _ _ _ _ ih =>
    rcases List.mem_cons.mp hw with rfl | hw
    · simp [hc]
    · simp [ih hw]

theorem mem_of_mem_tokens {s w : List α} (hw : w ∈ tokens sep s) {c : α} (hc : c ∈ w) : c ∈ s :=
  mem_of_view (tokens_view sep s) hw hc

theorem mem_intercalate {c d : α} {ws : List (List α)} (h : c ∈ [d].intercalate ws) :
    c = d ∨ ∃ w ∈ ws, c ∈ w := by
  induction ws with
  | nil => simp [List.intercalate] at h
  | cons w ws ih =>
    cases ws with
    | nil => exact .inr ⟨w, by simp, by simpa [List.intercalate] using h⟩
    | cons v ws =>
      rw [intercalate_cons, List.mem_append, List.mem_cons] at h
      rcases h with h | rfl | h
      · exact .inr ⟨w, by simp, h⟩
      · exact .inl rfl
      · rcases ih h with rfl | ⟨u, hu, hcu⟩
        · exact .inl rfl
        · exact .inr ⟨u, List.mem_cons_of_mem w hu, hcu⟩

end Tokens

/-- The lines of a text, without their ends; the last one may lack it. -/
def fileLines : Str → List Str
  | [] => []
  | c :: s =>
    if c = '\n' then [] :: fileLines s
    else
      match fileLines s with
      | [] => [[c]]
      | line :: lines => (c :: line) :: lines

theorem fileLines_line {line : Str} (hl : '\n' ∉ line) (s : Str) :
    fileLines (line ++ '\n' :: s) = line :: fileLines s := by
  induction line with
  | nil => simp [fileLines]
  | cons c line ih =>
    have hc : c ≠ '\n' := fun h => hl (by simp [h])
    rw [List.cons_append, fileLines, if_neg hc, ih fun h => hl (by simp [h])]

theorem fileLines_flatMap {α : Type} (text : α → Str) {xs : List α} (h : ∀ x ∈ xs, '\n' ∉ text x) :
    fileLines (xs.flatMap fun x => text x ++ ['\n']) = xs.map text := by
  induction xs with
  | nil => rfl
  | cons x xs ih =>
    rw [List.flatMap_cons, List.append_assoc, List.singleton_append, fileLines_line (h x (by simp)),
      ih fun y hy => h y (by simp [hy]), List.map_cons]

def pad (word : Str) : Str := ' ' :: word ++ [' ']

theorem pad_ne_nil (word : Str) : pad word ≠ [] := by simp [pad]

theorem pad_infix_skip {w v s : Str} (hv : ' ' ∉ v) (h : pad w <:+: v ++ ' ' :: s) :
    pad w <:+: ' ' :: s := by
  induction v with
  | nil => exact h
  | cons c v ih =>
    rcases List.infix_cons_iff.mp h with h | h
    · have hc : ' ' = c := (List.cons_prefix_cons.mp h).1
      subst hc
      simp at hv
    · exact ih (fun hm => hv (by simp [hm])) h

theorem mem_of_padded {w : Str} {ws : List Str} (hne : w ≠ []) (hw : ' ' ∉ w)
    (hws : ∀ v ∈ ws, ' ' ∉ v) (h : pad w <:+: ws.flatMap pad) : w ∈ ws := by
  induction ws with
  | nil => simp [pad_ne_nil] at h
  | cons v ws ih =>
    have hv := hws v (by simp)
    have hpad : (v :: ws).flatMap pad = ' ' :: (v ++ ' ' :: ws.flatMap pad) := by simp [pad]
    rw [hpad, List.infix_cons_iff] at h
    rcases h with h | h
    · have hwv := eq_of_prefix_sep hw hv (List.cons_prefix_cons.mp h).2
      simp [hwv]
    · -- the padded word starts at the blank behind `v` or later
      rcases List.infix_cons_iff.mp (pad_infix_skip hv h) with h | h
      · obtain ⟨c, w, rfl⟩ := List.exists_cons_of_ne_nil hne
        have hrest := (List.cons_prefix_cons.mp h).2
        cases ws with
        | nil => simp at hrest
        | cons u us =>
          have hc : c = ' ' := (List.cons_prefix_cons.mp hrest).1
          subst hc
          simp at hw
      · exact List.mem_cons_of_mem v (ih (fun u hu => hws u (by simp [hu])) h)

theorem not_mem_of_all {bad s : Str} (h : (s.all fun c => !(bad.contains c)) = true) : ∀ c ∈ s, c ∉ bad := by
  intro c hc hbad
  have hgood := List.all_eq_true.mp h c hc
  rw [List.contains_iff_mem.mpr hbad] at hgood
  cases hgood

def digits (n : Nat) : Str := Nat.toDigits 10 n

theorem digits_value (n : Nat) : Nat.ofDigitChars 10 (digits n) 0 = n :=
  Nat.ofDigitChars_toDigits (by decide) (by decide)

theorem digits_inj {m n : Nat} (h : digits m = digits n) : m = n := by
  rw [← digits_value m, h, digits_value]

theorem digit_of_mem {c : Char} {n : Nat} (h : c ∈ digits n) : c.isDigit = true :=
  Nat.isDigit_of_mem_toDigits (by decide) (by decide) h

theorem digits_ne_nil (n : Nat) : digits n ≠ [] := Nat.toDigits_ne_nil

end Text
