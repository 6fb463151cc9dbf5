import T2SDE.Lib.ShellPattern

namespace T2SDE

open Text Shell

section Functions

/-- `${text//\/\\/}` -/
def dropSlashes (text : Str) : Str := replaceAll "\\/\\\\".toList [] text

/-- A delimiter that stands for itself where `eval` reads it in double quotes, and in a replacement. -/
structure Delim where
  char : Char
  plain : char ∉ ['"', '$', Char.ofNat 96, '\\', '&']

def varAppend (delim : Delim) (value var : Str) : Str :=
  (if var ≠ [] then var ++ [delim.char] else var) ++ value

def varInsert (delim : Delim) (value var : Str) : Str :=
  value ++ (if var ≠ [] then delim.char :: var else var)

/-- `var_remove`: the whole value, in the middle, at the end and at the beginning. -/
def varRemove (delim value var : Str) : Str :=
  let a := dropSlashes delim
  let b := dropSlashes value
  let var := if var = value then [] else var
  let var := replaceAll (a ++ b ++ a) delim var
  let var := removeSuffix (a ++ b) var
  removePrefix (b ++ a) var

end Functions

section Lists

variable {d : Char} {x y v : Str} {items l : List Str}

/-- What `var_append` and `var_insert` put into a variable. -/
def IsItem (d : Char) (item : Str) : Prop := item ≠ [] ∧ d ∉ item

/-- A variable that is built with `var_append` and `var_insert`, from these items. -/
inductive Built (d : Delim) : List Str → Str → Prop
  | unset : Built d [] []
  | append {items : List Str} {v item : Str} : Built d items v → IsItem d.char item →
      Built d (items ++ [item]) (varAppend d item v)
  | insert {items : List Str} {v item : Str} : Built d items v → IsItem d.char item →
      Built d (item :: items) (varInsert d item v)

def joined (d : Char) (items : List Str) : Str := [d].intercalate items

theorem joined_cons_cons (d : Char) (x y : Str) (l : List Str) :
    joined d (x :: y :: l) = x ++ d :: joined d (y :: l) :=
  intercalate_cons d x y l

theorem joined_singleton (d : Char) (x : Str) : joined d [x] = x := by simp [joined, List.intercalate]

theorem joined_concat (d : Char) (x y : Str) (l : List Str) :
    joined d (x :: l ++ [y]) = joined d (x :: l) ++ d :: y := by
  induction l generalizing x with
  | nil => rw [List.cons_append, List.nil_append, joined_cons_cons, joined_singleton, joined_singleton]
  | cons z l ih =>
    rw [List.cons_append, List.cons_append, joined_cons_cons, ← List.cons_append, ih, joined_cons_cons,
      List.append_assoc,
      List.cons_append]

theorem joined_ne_nil (h : ∀ y ∈ items, IsItem d y) (hne : items ≠ []) : joined d items ≠ [] := by
  obtain ⟨x, l, rfl⟩ := List.exists_cons_of_ne_nil hne
  have hx := (h x List.mem_cons_self).1
  cases l with
  | nil => rwa [joined_singleton]
  | cons y l =>
    rw [joined_cons_cons]
    simp

theorem varAppend_joined (d : Delim) (h : ∀ y ∈ items, IsItem d.char y) :
    varAppend d x (joined d.char items) = joined d.char (items ++ [x]) := by
  cases items with
  | nil => rw [List.nil_append, joined_singleton]; rfl
  | cons y l =>
    rw [varAppend, if_pos (joined_ne_nil h (List.cons_ne_nil y l)), joined_concat, List.append_assoc]
    rfl

theorem Built.spec {d : Delim} (h : Built d items v) :
    v = joined d.char items ∧ ∀ y ∈ items, IsItem d.char y := by
  induction h with
  | unset => exact ⟨rfl, by simp⟩
  | @append items v item _ hitem ih =>
    obtain ⟨rfl, hall⟩ := ih
    refine ⟨varAppend_joined d hall, fun y hy => ?_⟩
    · rcases List.mem_append.mp hy with hy | hy
      · exact hall y hy
      · rw [List.mem_singleton.mp hy]
        exact hitem
  | @insert items v item _ hitem ih =>
    obtain ⟨rfl, hall⟩ := ih
    refine ⟨?_, fun y hy => ?_⟩
    · cases items with
      | nil => rw [joined_singleton, varInsert]; exact List.append_nil item
      | cons x l =>
        rw [varInsert, if_pos (joined_ne_nil hall (List.cons_ne_nil x l)), joined_cons_cons]
    · rcases List.mem_cons.mp hy with rfl | hy
      · exact hitem
      · exact hall y hy

theorem joined_inj {other : List Str} (h : ∀ y ∈ items, IsItem d y) (hother : ∀ y ∈ other, IsItem d y) :
    joined d items = joined d other ↔ items = other := by
  have hsplit : ∀ l : List Str, (∀ y ∈ l, IsItem d y) → tokens (· == d) (joined d l) = l := by
    intro l hl
    refine tokens_intercalate (by simp) fun w hw => ⟨(hl w hw).1, fun c hc => ?_⟩
    have hne : c ≠ d := fun heq => (hl w hw).2 (heq ▸ hc)
    simpa using hne
  constructor
  · intro heq
    rw [← hsplit items h, heq, hsplit other hother]
  · exact congrArg (joined d)

end Lists

section Items

variable {x y z : Str} {items l inner : List Str}

/-- The replacement in the middle, behind a first item: the one behind a removed item is passed over. -/
def thin (x : Str) : List Str → List Str
  | [] => []
  | [y] => if y = x then [] else [y]
  | y :: z :: l => if y = x then z :: thin x l else y :: thin x (z :: l)

/-- The replacement in the middle: the first and the last item stay. -/
def thinMiddle (x : Str) : List Str → List Str
  | [] => []
  | [y] => [y]
  | [y, z] => [y, z]
  | y :: z :: w :: l => if z = x then y :: thinMiddle x (w :: l) else y :: thinMiddle x (z :: w :: l)

def dropEnd (x : Str) (items : List Str) : List Str :=
  if 2 ≤ items.length ∧ items.getLast? = some x then items.dropLast else items

def dropStart (x : Str) (items : List Str) : List Str :=
  if 2 ≤ items.length ∧ items.head? = some x then items.tail else items

/-- What `var_remove` does to the items. -/
def removeItem (x : Str) (items : List Str) : List Str :=
  if items = [x] then [] else dropStart x (dropEnd x (thinMiddle x items))

/-- The list has another item, and between its ends `x` does not follow itself; or it is `x` alone,
or empty. -/
def Removable (x : Str) (items : List Str) : Prop :=
  items = [] ∨ items = [x] ∨ (∃ y ∈ items, y ≠ x) ∧ ¬[x, x] <:+: items.tail.dropLast

theorem thinMiddle_eq (x y z : Str) (inner : List Str) :
    thinMiddle x (y :: (inner ++ [z])) = y :: (thin x inner ++ [z]) := by
  induction inner using thin.induct x generalizing y with
  | case1 => rfl
  | case2 => simp [thinMiddle, thin]
  | case3 w hw =>
    simp [thinMiddle, thin, hw]
  | case4 w l ih =>
    rw [List.cons_append, List.cons_append, thinMiddle, if_pos rfl, ih, thin, if_pos rfl]
    rfl
  | case5 w w' l hw ih =>
    rw [List.cons_append, List.cons_append, thinMiddle, if_neg hw, ← List.cons_append, ih, thin, if_neg hw]
    rfl

theorem twice_cons : [x, x] <:+: y :: z :: l ↔ y = x ∧ z = x ∨ [x, x] <:+: z :: l := by
  rw [List.infix_cons_iff, List.cons_prefix_cons, List.cons_prefix_cons]
  constructor
  · rintro (⟨rfl, rfl, -⟩ | h)
    · exact .inl ⟨rfl, rfl⟩
    · exact .inr h
  · rintro (⟨rfl, rfl⟩ | h)
    · exact .inl ⟨rfl, rfl, List.nil_prefix⟩
    · exact .inr h

theorem not_twice_singleton (x y : Str) : ¬[x, x] <:+: [y] := by
  intro h
  simpa using h.length_le

theorem mem_of_twice (h : [x, x] <:+: l) : x ∈ l := h.subset List.mem_cons_self

/-- Everything is removed just if no two in a row are to be removed. -/
theorem thin_iff (x : Str) (l : List Str) : thin x l = l.filter (· ≠ x) ↔ ¬[x, x] <:+: l := by
  induction l using thin.induct x with
  | case1 => simp [thin]
  | case2 => simpa [thin] using not_twice_singleton x x
  | case3 w hw => simpa [thin, hw] using not_twice_singleton x w
  | case4 w l ih =>
    rw [thin, if_pos rfl, twice_cons, List.filter_cons_of_neg (by simp)]
    by_cases hw : w = x
    · subst hw
      refine iff_of_false (fun heq => ?_) fun h => h (.inl ⟨rfl, rfl⟩)
      have hmem : w ∈ (w :: l).filter (· ≠ w) := heq ▸ List.mem_cons_self
      simpa using (List.mem_filter.mp hmem).2
    · rw [List.filter_cons_of_pos (by simpa using hw), List.cons_inj_right, ih, List.infix_cons_iff,
        List.cons_prefix_cons]
      have hne : x ≠ w := fun heq => hw heq.symm
      simp [hw, hne]
  | case5 w w' l hw ih =>
    rw [thin, if_neg hw, twice_cons, List.filter_cons_of_pos (by simpa using hw), List.cons_inj_right, ih]
    simp [hw]

theorem not_mem_filter_ne (x : Str) (l : List Str) : x ∉ l.filter (· ≠ x) := by simp

theorem thin_nil (h : thin x l = []) : ∀ y ∈ l, y = x := by
  cases l with
  | nil => simp
  | cons y l =>
    cases l with
    | nil =>
      intro z hz
      rw [List.mem_singleton.mp hz]
      by_contra hy
      simp [thin, hy] at h
    | cons z l =>
      by_cases hy : y = x
      · simp [thin, hy] at h
      · simp [thin, hy] at h

theorem dropStart_cons (hne : l ≠ []) : dropStart x (x :: l) = l := by
  have hlen := List.length_pos_iff.mpr hne
  rw [dropStart, if_pos ⟨by rw [List.length_cons]; omega, rfl⟩]
  rfl

theorem dropStart_other (hy : y ≠ x) : dropStart x (y :: l) = y :: l := by
  rw [dropStart, if_neg]
  simp [hy]

theorem dropEnd_concat (y : Str) (l : List Str) (z : Str) :
    dropEnd x (y :: (l ++ [z])) = if z = x then y :: l else y :: (l ++ [z]) := by
  have hlast : (y :: (l ++ [z])).getLast? = some z := by
    rw [← List.cons_append, List.getLast?_append]
    rfl
  have hlen : 2 ≤ (y :: (l ++ [z])).length := by simp
  rw [dropEnd, hlast]
  by_cases hz : z = x
  · rw [if_pos ⟨hlen, by rw [hz]⟩, if_pos hz, ← List.cons_append, List.dropLast_concat]
  · rw [if_neg fun h => hz (Option.some.inj h.2), if_neg hz]

theorem removeItem_iff (x : Str) (items : List Str) :
    removeItem x items = items.filter (· ≠ x) ↔ Removable x items := by
  cases items with
  | nil => exact iff_of_true rfl (.inl rfl)
  | cons y items =>
    rcases List.eq_nil_or_concat' items with rfl | ⟨inner, z, rfl⟩
    · by_cases hy : y = x
      · subst hy
        exact iff_of_true (by simp [removeItem]) (.inr (.inl rfl))
      · refine iff_of_true ?_ (.inr (.inr ⟨⟨y, by simp, hy⟩, by simp⟩))
        simp [removeItem, hy, thinMiddle, dropEnd, dropStart]
    · have hone : y :: (inner ++ [z]) ≠ [x] := by simp
      have hempty : y :: (inner ++ [z]) ≠ [] := by simp
      have hinner : (y :: (inner ++ [z])).tail.dropLast = inner := by simp
      rw [removeItem, if_neg hone, thinMiddle_eq, dropEnd_concat, Removable, hinner, ← thin_iff]
      simp only [hone, hempty, false_or]
      by_cases hy : y = x
      · subst hy
        rw [List.filter_cons_of_neg (by simp), List.filter_append]
        by_cases hz : z = y
        · subst hz
          have hself : [z].filter (· ≠ z) = [] := by simp
          rw [if_pos rfl, hself, List.append_nil]
          by_cases hthin : thin z inner = []
          · have hall := thin_nil hthin
            rw [hthin]
            refine iff_of_false (fun heq => ?_) fun h => ?_
            · exact not_mem_filter_ne z inner (heq ▸ List.mem_singleton_self z)
            · obtain ⟨⟨w, hw, hne⟩, -⟩ := h
              simp only [List.mem_cons, List.mem_append, List.not_mem_nil, or_false] at hw
              rcases hw with hw | hw | hw
              · exact hne hw
              · exact hne (hall w hw)
              · exact hne hw
          · rw [dropStart_cons hthin]
            refine ⟨fun heq => ⟨?_, heq⟩, fun h => h.2⟩
            obtain ⟨w, hw⟩ := List.exists_mem_of_ne_nil _ hthin
            rw [heq] at hw
            obtain ⟨hw, hne⟩ := List.mem_filter.mp hw
            exact ⟨w, by simp [hw], by simpa using hne⟩
        · have hkeep : [z].filter (· ≠ y) = [z] := by simp [hz]
          rw [if_neg hz, dropStart_cons (by simp), hkeep, List.append_left_inj]
          exact ⟨fun heq => ⟨⟨z, by simp, hz⟩, heq⟩, fun h => h.2⟩
      · rw [List.filter_cons_of_pos (by simpa using hy), List.filter_append]
        by_cases hz : z = x
        · have hself : [z].filter (· ≠ x) = [] := by simp [hz]
          rw [if_pos hz, dropStart_other hy, hself, List.append_nil, List.cons_inj_right]
          exact ⟨fun heq => ⟨⟨y, by simp, hy⟩, heq⟩, fun h => h.2⟩
        · have hkeep : [z].filter (· ≠ x) = [z] := by simp [hz]
          rw [if_neg hz, dropStart_other hy, hkeep, List.cons_inj_right, List.append_left_inj]
          exact ⟨fun heq => ⟨⟨y, by simp, hy⟩, heq⟩, fun h => h.2⟩

end Items

section Remove

variable {d : Char} {x y u t w v pattern repl : Str} {items l : List Str}

theorem joined_cons (d : Char) (y : Str) (hne : l ≠ []) : joined d (y :: l) = y ++ d :: joined d l := by
  obtain ⟨z, l, rfl⟩ := List.exists_cons_of_ne_nil hne
  exact joined_cons_cons d y z l

/-- No match begins in a text without the delimiter. -/
theorem replaceAll_word (hu : d ∉ u) (h : Only pattern (d :: w) (u ++ t)) :
    replaceAll pattern repl (u ++ t) = u ++ replaceAll pattern repl t := by
  induction u with
  | nil => rfl
  | cons c u ih =>
    have hc : ¬d :: w <+: c :: (u ++ t) := by
      intro hpre
      rw [(List.cons_prefix_cons.mp hpre).1] at hu
      exact hu List.mem_cons_self
    rw [List.cons_append] at h ⊢
    rw [replaceAll_copy h hc, ih (fun hd => hu (List.mem_cons_of_mem c hd))
      (h.inside (List.suffix_cons c _).isInfix)]
    rfl

theorem thinMiddle_ne_nil (x y : Str) (l : List Str) : thinMiddle x (y :: l) ≠ [] := by
  match l with
  | [] => simp [thinMiddle]
  | [z] => simp [thinMiddle]
  | z :: w :: l =>
    rw [thinMiddle]
    split_ifs <;> simp

theorem replaceAll_item (hy : d ∉ y) (h : Only pattern (d :: w) y) : replaceAll pattern repl y = y := by
  have hrun : replaceAll pattern repl (y ++ []) = y ++ replaceAll pattern repl [] :=
    replaceAll_word hy (by rwa [List.append_nil])
  rwa [List.append_nil, show replaceAll pattern repl [] = [] from rfl, List.append_nil] at hrun

/-- The replacement in the middle takes items away. -/
theorem replaceAll_joined (hitems : ∀ y ∈ items, IsItem d y) (hx : IsItem d x)
    (h : Only pattern (d :: (x ++ [d])) (joined d items)) :
    replaceAll pattern [d] (joined d items) = joined d (thinMiddle x items) := by
  induction items using thinMiddle.induct x with
  | case1 => rfl
  | case2 y =>
    rw [thinMiddle, joined_singleton] at *
    exact replaceAll_item (hitems y List.mem_cons_self).2 h
  | case3 y z =>
    have hz : d ∉ z := (hitems z (by simp)).2
    have hnone : ¬d :: (x ++ [d]) <+: d :: z := by
      rw [List.cons_prefix_cons]
      exact fun hpre => hz (hpre.2.subset (by simp))
    rw [joined_cons_cons, joined_singleton] at h
    have htail := h.inside (List.suffix_append y (d :: z)).isInfix
    rw [thinMiddle, joined_cons_cons, joined_singleton, replaceAll_word (hitems y List.mem_cons_self).2 h,
      replaceAll_copy htail hnone, replaceAll_item hz (htail.inside (List.suffix_cons d z).isInfix)]
  | case4 y w l ih =>
    have hrest : ∀ z ∈ w :: l, IsItem d z := fun z hz => hitems z (by simp [List.mem_cons.mp hz])
    rw [joined_cons_cons, joined_cons_cons] at h
    have htail := h.inside (List.suffix_append y _).isInfix
    have hword : d :: (x ++ d :: joined d (w :: l)) = d :: (x ++ [d]) ++ joined d (w :: l) := by simp
    rw [hword] at htail
    rw [thinMiddle, if_pos rfl, joined_cons _ _ (thinMiddle_ne_nil x w l), joined_cons_cons, joined_cons_cons,
      replaceAll_word (hitems y List.mem_cons_self).2 h, hword, replaceAll_match htail (List.cons_ne_nil _ _),
      ih hrest (htail.inside (List.suffix_append _ _).isInfix)]
    rfl
  | case5 y z w l hz ih =>
    have hrest : ∀ v ∈ z :: w :: l, IsItem d v := fun v hv => hitems v (List.mem_cons_of_mem y hv)
    have hnone : ¬d :: (x ++ [d]) <+: d :: joined d (z :: w :: l) := by
      rw [List.cons_prefix_cons, joined_cons_cons]
      exact fun hpre => hz (eq_of_prefix_sep hx.2 (hitems z (by simp)).2 hpre.2).symm
    rw [joined_cons_cons] at h
    have htail := h.inside (List.suffix_append y _).isInfix
    rw [thinMiddle, if_neg hz, joined_cons _ _ (thinMiddle_ne_nil x z (w :: l)), joined_cons_cons,
      replaceAll_word (hitems y List.mem_cons_self).2 h, replaceAll_copy htail hnone,
      ih hrest (htail.inside (List.suffix_cons d _).isInfix)]

theorem removeSuffix_joined (hitems : ∀ y ∈ items, IsItem d y) (hx : IsItem d x)
    (h : Only pattern (d :: x) (joined d items)) :
    removeSuffix pattern (joined d items) = joined d (dropEnd x items) := by
  cases items with
  | nil => exact removeSuffix_none h (by simp [joined, List.intercalate])
  | cons y items =>
    rcases List.eq_nil_or_concat' items with rfl | ⟨inner, z, rfl⟩
    · have hnone : ¬d :: x <:+ joined d [y] := by
        rw [joined_singleton]
        exact fun hsuf => (hitems y List.mem_cons_self).2 (hsuf.subset List.mem_cons_self)
      rw [removeSuffix_none h hnone]
      rfl
    · rw [← List.cons_append, joined_concat] at h ⊢
      rw [List.cons_append, dropEnd_concat]
      by_cases hz : z = x
      · subst hz
        rw [removeSuffix_append h, if_pos rfl]
      · have hnone : ¬d :: x <:+ joined d (y :: inner) ++ d :: z := by
          intro hsuf
          have hsuf' : [] ++ d :: x <:+ joined d (y :: inner) ++ d :: z := hsuf
          exact hz (eq_of_suffix_sep hx.2 (hitems z (by simp)).2 hsuf').symm
        rw [removeSuffix_none h hnone, if_neg hz, ← List.cons_append, joined_concat]

theorem removePrefix_joined (hitems : ∀ y ∈ items, IsItem d y) (hx : IsItem d x)
    (h : Only pattern (x ++ [d]) (joined d items)) :
    removePrefix pattern (joined d items) = joined d (dropStart x items) := by
  match items with
  | [] => exact removePrefix_none h (by simp [joined, List.intercalate])
  | [y] =>
    have hnone : ¬x ++ [d] <+: joined d [y] := by
      rw [joined_singleton]
      exact fun hpre => (hitems y List.mem_cons_self).2 (hpre.subset (by simp))
    rw [removePrefix_none h hnone]
    rfl
  | y :: z :: l =>
    rw [joined_cons_cons] at h ⊢
    by_cases hy : y = x
    · subst hy
      have hword : y ++ d :: joined d (z :: l) = y ++ [d] ++ joined d (z :: l) := by simp
      rw [hword] at h ⊢
      rw [removePrefix_append h, dropStart_cons (List.cons_ne_nil z l)]
    · have hnone : ¬x ++ [d] <+: y ++ d :: joined d (z :: l) := fun hpre =>
        hy (eq_of_prefix_sep hx.2 (hitems y List.mem_cons_self).2 hpre).symm
      rw [removePrefix_none h hnone, dropStart_other hy, joined_cons_cons]

theorem thinMiddle_sublist (x : Str) (items : List Str) : (thinMiddle x items).Sublist items := by
  induction items using thinMiddle.induct x with
  | case1 | case2 | case3 => exact List.Sublist.refl _
  | case4 y w l ih =>
    rw [thinMiddle, if_pos rfl]
    exact (ih.cons x).cons_cons y
  | case5 y z w l hz ih =>
    rw [thinMiddle, if_neg hz]
    exact ih.cons_cons y

theorem dropEnd_sublist (x : Str) (items : List Str) : (dropEnd x items).Sublist items := by
  unfold dropEnd
  split_ifs
  · exact List.dropLast_sublist items
  · exact List.Sublist.refl items

theorem dropStart_sublist (x : Str) (items : List Str) : (dropStart x items).Sublist items := by
  unfold dropStart
  split_ifs
  · exact List.tail_sublist items
  · exact List.Sublist.refl items

theorem removeItem_sublist (x : Str) (items : List Str) : (removeItem x items).Sublist items := by
  unfold removeItem
  split_ifs
  · exact List.nil_sublist items
  · exact ((dropStart_sublist x _).trans (dropEnd_sublist x _)).trans (thinMiddle_sublist x items)

/-- In the variable and in what is left of it, the three patterns match the item with its delimiters only. -/
def ReadsItself (d : Char) (x : Str) (items : List Str) : Prop :=
  ∀ l : List Str, l.Sublist items →
    Only (dropSlashes [d] ++ dropSlashes x ++ dropSlashes [d]) (d :: (x ++ [d])) (joined d l) ∧
      Only (dropSlashes [d] ++ dropSlashes x) (d :: x) (joined d l) ∧
      Only (dropSlashes x ++ dropSlashes [d]) (x ++ [d]) (joined d l)

theorem varRemove_joined (hitems : ∀ y ∈ items, IsItem d y) (hx : IsItem d x)
    (hread : ReadsItself d x items) :
    varRemove [d] x (joined d items) = joined d (removeItem x items) := by
  have hsub {l : List Str} (hl : l.Sublist items) : ∀ y ∈ l, IsItem d y := fun y hy => hitems y (hl.subset hy)
  have hwhole : joined d items = x ↔ items = [x] := by
    have hsingle : ∀ y ∈ [x], IsItem d y := fun y hy => by rwa [List.mem_singleton.mp hy]
    rw [← joined_inj hitems hsingle, joined_singleton]
  rw [varRemove, removeItem]
  by_cases hone : items = [x]
  · obtain ⟨-, hend, hstart⟩ := hread [] (List.nil_sublist items)
    have hempty : ∀ y ∈ ([] : List Str), IsItem d y := by simp
    simp only [if_pos (hwhole.mpr hone), if_pos hone]
    rw [show replaceAll _ [d] [] = joined d [] from rfl, removeSuffix_joined hempty hx hend]
    exact removePrefix_joined hempty hx hstart
  · have hthin := thinMiddle_sublist x items
    have hend := (dropEnd_sublist x _).trans hthin
    simp only [if_neg fun heq => hone (hwhole.mp heq), if_neg hone]
    rw [replaceAll_joined hitems hx (hread items (List.Sublist.refl items)).1,
      removeSuffix_joined (hsub hthin) hx (hread _ hthin).2.1,
      removePrefix_joined (hsub hend) hx (hread _ hend).2.2]

end Remove

section Plain

variable {d : Char} {x text : Str}

theorem dropSlashes_eq (h : '\\' ∉ text) : dropSlashes text = text := by
  have hpattern : ∀ s, covers "\\/\\\\".toList s = true ↔ s = ['/', '\\'] := coversPieces_chars ['/', '\\']
  exact replaceAll_none (fun t _ => hpattern t) fun hin => h (hin.subset (by simp))

/-- A value without pattern characters is read as itself in every list. -/
theorem readsItself_plain (hd : d ∉ special) (hx : ∀ c ∈ x, c ∉ special) (items : List Str) :
    ReadsItself d x items := by
  have hescape : ∀ {s : Str}, (∀ c ∈ s, c ∉ special) → '\\' ∉ s :=
    fun hs hmem => hs _ hmem (by simp [special])
  have hdelim : ∀ c ∈ [d], c ∉ special := fun c hc => by rwa [List.mem_singleton.mp hc]
  rw [ReadsItself, dropSlashes_eq (hescape hdelim), dropSlashes_eq (hescape hx)]
  refine fun l _ => ⟨fun t _ => covers_literal ?_ t, fun t _ => covers_literal ?_ t, fun t _ =>
    covers_literal ?_ t⟩
  · intro c hc
    simp only [List.mem_append] at hc
    exact hc.elim (fun hc => hc.elim (hdelim c) (hx c)) (hdelim c)
  · intro c hc
    exact (List.mem_cons.mp hc).elim (fun hc => by rwa [hc]) (hx c)
  · intro c hc
    exact (List.mem_append.mp hc).elim (hx c) (hdelim c)

end Plain

section Main

variable {x : Str} {items : List Str}

/-- `var_remove` deletes just the value if between the ends of the list the value does not follow itself. -/
theorem varRemove_iff (d : Delim) (items : List Str) (x v : Str) (hv : Built d items v) (hx : IsItem d.char x)
    (hread : ReadsItself d.char x items) :
    varRemove [d.char] x v = joined d.char (items.filter (· ≠ x)) ↔ Removable x items := by
  obtain ⟨rfl, hitems⟩ := hv.spec
  rw [varRemove_joined hitems hx hread, joined_inj, removeItem_iff]
  · exact fun y hy => hitems y ((removeItem_sublist x items).subset hy)
  · exact fun y hy => hitems y (List.mem_filter.mp hy).1

/-- `:` between the directories of a path. -/
def colon : Delim := ⟨':', by decide⟩

theorem built_aba : Built colon ["a".toList, "b".toList, "a".toList] "a:b:a".toList :=
  .append (.append (.insert .unset ⟨by decide, by decide⟩) ⟨by decide, by decide⟩) ⟨by decide, by decide⟩

theorem varRemove_iff_aba :
    varRemove [':'] "a".toList "a:b:a".toList =
        joined ':' (["a".toList, "b".toList, "a".toList].filter (· ≠ "a".toList)) ↔
      Removable "a".toList ["a".toList, "b".toList, "a".toList] :=
  varRemove_iff colon _ _ _ built_aba ⟨by decide, by decide⟩
    (readsItself_plain (by decide) (not_mem_of_all (by decide)) _)

/-- Of two values in a row one stays. -/
theorem varRemove_keeps : ¬∀ (d : Delim) (items : List Str) (x v : Str), Built d items v → IsItem d.char x →
    varRemove [d.char] x v = joined d.char (items.filter (· ≠ x)) := by
  intro h
  have hbuilt : Built colon ["a".toList, "x".toList, "x".toList, "b".toList] "a:x:x:b".toList :=
    .append (.append (.append (.append .unset ⟨by decide, by decide⟩) ⟨by decide, by decide⟩) ⟨by decide,
      by decide⟩)
      ⟨by decide, by decide⟩
  have heq := h colon _ "x".toList _ hbuilt ⟨by decide, by decide⟩
  exact absurd heq (by decide)

end Main

end T2SDE
