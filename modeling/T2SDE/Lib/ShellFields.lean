import T2SDE.Lib.Text

/-!
What a shell makes of the value of an expansion outside of quotes: fields between the characters of
IFS, and for each of them the names that it stands for as a pattern.
-/

namespace ShellFields

open Text

/-- Where the splitting is: behind a complete separator, behind a blank that ended a field, or in a field. -/
inductive Place
  | start
  | gap
  | field (w : Str)

def white (c : Char) : Bool := c == ' ' || c == '\t' || c == '\n'

/-- Blanks of IFS separate fields together with at most one other character of IFS. -/
def fieldsFrom (ifs : Str) : Place → Str → List Str
  | .start, [] => []
  | .gap, [] => []
  | .field w, [] => [w]
  | .start, c :: s =>
    if c ∈ ifs then if white c then fieldsFrom ifs .start s else [] :: fieldsFrom ifs .start s
    else fieldsFrom ifs (.field [c]) s
  | .gap, c :: s =>
    if c ∈ ifs then if white c then fieldsFrom ifs .gap s else fieldsFrom ifs .start s
    else fieldsFrom ifs (.field [c]) s
  | .field w, c :: s =>
    if c ∈ ifs then w :: fieldsFrom ifs (if white c then .gap else .start) s
    else fieldsFrom ifs (.field (w ++ [c])) s

attribute [grind =] fieldsFrom

def fields (ifs s : Str) : List Str := fieldsFrom ifs .start s

/-- The words that the value of an expansion becomes. -/
def splitGlob (ifs : Str) (glob : Str → List Str) (s : Str) : List Str := (fields ifs s).flatMap glob

section Fields

variable {ifs s : Str}

@[simp] theorem fields_nil (ifs : Str) : fields ifs [] = [] := rfl

theorem fieldsFrom_plain (hs : ∀ c ∈ s, c ∉ ifs) (w : Str) : fieldsFrom ifs (.field w) s = [w ++ s] := by
  induction s generalizing w with
  | nil => simp [fieldsFrom]
  | cons c s ih =>
    rw [fieldsFrom, if_neg (hs c List.mem_cons_self), ih fun x hx => hs x (List.mem_cons_of_mem c hx),
      List.append_assoc]
    rfl

theorem fields_plain (hne : s ≠ []) (hs : ∀ c ∈ s, c ∉ ifs) : fields ifs s = [s] := by
  obtain ⟨c, s, rfl⟩ := List.exists_cons_of_ne_nil hne
  rw [fields, fieldsFrom, if_neg (hs c List.mem_cons_self),
    fieldsFrom_plain fun x hx => hs x (List.mem_cons_of_mem c hx)]
  rfl

theorem fieldsFrom_word {w : Str} (hw : ∀ c ∈ w, c ∉ ifs) (v s : Str) :
    fieldsFrom ifs (.field v) (w ++ s) = fieldsFrom ifs (.field (v ++ w)) s := by
  induction w generalizing v with
  | nil => rw [List.nil_append, List.append_nil]
  | cons c w ih =>
    rw [List.cons_append, fieldsFrom, if_neg (hw c List.mem_cons_self),
      ih fun x hx => hw x (List.mem_cons_of_mem c hx), List.append_assoc]
    rfl

/-- Words with a blank in front of each are read one by one. -/
theorem fieldsFrom_words (hblank : ' ' ∈ ifs) {ws : List Str} (hws : ∀ w ∈ ws, w ≠ [] ∧ ∀ c ∈ w, c ∉ ifs)
    (v : Str) : fieldsFrom ifs (.field v) (ws.flatMap (' ' :: ·)) = v :: ws := by
  induction ws generalizing v with
  | nil => rfl
  | cons w ws ih =>
    obtain ⟨hne, hw⟩ := hws w List.mem_cons_self
    obtain ⟨c, w, rfl⟩ := List.exists_cons_of_ne_nil hne
    have hc := hw c List.mem_cons_self
    have hrest := fieldsFrom_word (fun x hx => hw x (List.mem_cons_of_mem c hx)) [c] (ws.flatMap (' ' :: ·))
    have hwhite : white ' ' = true := rfl
    rw [List.flatMap_cons, List.cons_append, fieldsFrom, if_pos hblank, hwhite, if_pos rfl,
      List.cons_append, fieldsFrom, if_neg hc, hrest, ih fun x hx => hws x (List.mem_cons_of_mem _ hx)]
    rfl

/-- What has been read of a field is free of separators. -/
def Place.Free (ifs : Str) : Place → Prop
  | .field w => ∀ c ∈ w, c ∉ ifs
  | _ => True

theorem fieldsFrom_free {place : Place} (hplace : place.Free ifs) :
    ∀ w ∈ fieldsFrom ifs place s, ∀ c ∈ w, c ∉ ifs := by
  induction s generalizing place with
  | nil =>
    intro w hw
    cases place with
    | start => cases hw
    | gap => cases hw
    | field v =>
      obtain rfl := List.mem_singleton.mp hw
      exact hplace
  | cons c s ih =>
    have hstart : Place.start.Free ifs := trivial
    have hgap : Place.gap.Free ifs := trivial
    have hone (hc : c ∉ ifs) : (Place.field [c]).Free ifs := fun x hx => by rwa [List.mem_singleton.mp hx]
    intro w hw
    by_cases hc : c ∈ ifs
    · cases place with
      | start =>
        rw [fieldsFrom, if_pos hc] at hw
        split at hw
        · exact ih hstart w hw
        · rcases List.mem_cons.mp hw with rfl | hw
          · simp
          · exact ih hstart w hw
      | gap =>
        rw [fieldsFrom, if_pos hc] at hw
        split at hw
        · exact ih hgap w hw
        · exact ih hstart w hw
      | field v =>
        rw [fieldsFrom, if_pos hc] at hw
        rcases List.mem_cons.mp hw with rfl | hw
        · exact hplace
        · refine ih ?_ w hw
          split <;> trivial
    · cases place with
      | start =>
        rw [fieldsFrom, if_neg hc] at hw
        exact ih (hone hc) w hw
      | gap =>
        rw [fieldsFrom, if_neg hc] at hw
        exact ih (hone hc) w hw
      | field v =>
        rw [fieldsFrom, if_neg hc] at hw
        have hmore : (Place.field (v ++ [c])).Free ifs := by
          intro x hx
          rcases List.mem_append.mp hx with hx | hx
          · exact hplace x hx
          · rwa [List.mem_singleton.mp hx]
        exact ih hmore w hw

theorem fields_free (ifs s : Str) : ∀ w ∈ fields ifs s, ∀ c ∈ w, c ∉ ifs := fieldsFrom_free trivial

/-- Where all of IFS is blank, the fields are the words between its characters. -/
theorem fields_white (hifs : ∀ c ∈ ifs, white c = true) (s : Str) : fields ifs s = tokens (· ∈ ifs) s := by
  have hread : ∀ (s w : Str),
      fieldsFrom ifs (.field w) s = (w ++ (tokensAux (· ∈ ifs) s).1) :: (tokensAux (· ∈ ifs) s).2 ∧
        fieldsFrom ifs .gap s = tokens (· ∈ ifs) s ∧ fieldsFrom ifs .start s = tokens (· ∈ ifs) s := by
    intro s
    induction s with
    | nil => exact fun w => ⟨by simp [fieldsFrom, tokensAux], rfl, rfl⟩
    | cons c s ih =>
      intro w
      by_cases hc : c ∈ ifs
      · have hsep : tokens (· ∈ ifs) (c :: s) = tokens (· ∈ ifs) s := tokens_cons_sep (by simpa using hc) s
        have hwhite := hifs c hc
        simp only [fieldsFrom, if_pos hc, hwhite, if_true, (ih w).2, hsep, and_self, and_true]
        simp [tokensAux, hc, tokens]
      · simp only [fieldsFrom, if_neg hc, (ih (w ++ [c])).1, (ih [c]).1]
        simp [tokens, tokensAux, hc, consWord]
  exact (hread s []).2.2

end Fields

section Glob

variable {ifs : Str} {glob : Str → List Str} {args : List Str}

/-- A text is left as it is if it is one field that matches nothing else. -/
theorem splitGlob_self {s : Str} (hne : s ≠ []) (hs : ∀ c ∈ s, c ∉ ifs) (hglob : glob s = [s]) :
    splitGlob ifs glob s = [s] := by
  rw [splitGlob, fields_plain hne hs, List.flatMap_singleton, hglob]

/-- A line of words that are each left as they are is split at the blanks between them. -/
theorem splitGlob_words (hblank : ' ' ∈ ifs) {w : Str} {ws : List Str}
    (h : ∀ a ∈ w :: ws, a ≠ [] ∧ (∀ c ∈ a, c ∉ ifs) ∧ glob a = [a]) :
    splitGlob ifs glob (w ++ ws.flatMap (' ' :: ·)) = w :: ws := by
  have hfields : fields ifs (w ++ ws.flatMap (' ' :: ·)) = w :: ws := by
    obtain ⟨hne, hw, _⟩ := h w List.mem_cons_self
    obtain ⟨c, w, rfl⟩ := List.exists_cons_of_ne_nil hne
    have hrest := fieldsFrom_word (fun x hx => hw x (List.mem_cons_of_mem c hx)) [c] (ws.flatMap (' ' :: ·))
    rw [fields, List.cons_append, fieldsFrom, if_neg (hw c List.mem_cons_self), hrest]
    exact fieldsFrom_words hblank (fun a ha => ⟨(h a (List.mem_cons_of_mem _ ha)).1,
      (h a (List.mem_cons_of_mem _ ha)).2.1⟩) _
  have hself : (w :: ws).map glob = (w :: ws).map ([·]) := List.map_congr_left fun a ha => (h a ha).2.2
  rw [splitGlob, hfields, List.flatMap_def, hself]
  exact List.flatMap_singleton' _

theorem splitGlob_args (h : ∀ a ∈ args, a ≠ [] ∧ (∀ c ∈ a, c ∉ ifs) ∧ glob a = [a]) :
    args.flatMap (splitGlob ifs glob) = args := by
  induction args with
  | nil => rfl
  | cons a args ih =>
    obtain ⟨hne, hs, hglob⟩ := h a List.mem_cons_self
    rw [List.flatMap_cons, splitGlob_self hne hs hglob, ih fun x hx => h x (List.mem_cons_of_mem a hx)]
    rfl

theorem flatMap_eq_self {α : Type} {f : α → List α} {xs : List α} (hf : ∀ x ∈ xs, f x ≠ [])
    (h : xs.flatMap f = xs) : ∀ x ∈ xs, f x = [x] := by
  have hcount : ∀ ys : List α, (∀ y ∈ ys, f y ≠ []) → ys.length ≤ (ys.flatMap f).length := by
    intro ys hys
    induction ys with
    | nil => simp
    | cons y ys ih =>
      have hrest := ih fun z hz => hys z (List.mem_cons_of_mem y hz)
      have hpos := List.length_pos_iff.mpr (hys y List.mem_cons_self)
      rw [List.flatMap_cons, List.length_append, List.length_cons]
      omega
  induction xs with
  | nil => simp
  | cons x xs ih =>
    have hlen := congrArg List.length h
    have hrest := hcount xs fun z hz => hf z (List.mem_cons_of_mem x hz)
    have hpos := List.length_pos_iff.mpr (hf x List.mem_cons_self)
    rw [List.flatMap_cons, List.length_append, List.length_cons] at hlen
    obtain ⟨y, hy⟩ : ∃ y, f x = [y] := List.length_eq_one_iff.mp (by omega)
    rw [List.flatMap_cons, hy, List.singleton_append, List.cons.injEq] at h
    obtain ⟨rfl, h⟩ := h
    intro z hz
    rcases List.mem_cons.mp hz with rfl | hz
    · exact hy
    · exact ih (fun v hv => hf v (List.mem_cons_of_mem y hv)) h z hz

/-- Where no name of a file has a separator, texts are left as they are only if each of them is one field
that matches nothing else. -/
theorem args_of_splitGlob
    (hfiles : ∀ s, glob s = [s] ∨ glob s ≠ [] ∧ ∀ name ∈ glob s, name ≠ [] ∧ ∀ c ∈ name, c ∉ ifs)
    (h : args.flatMap (splitGlob ifs glob) = args) :
    ∀ a ∈ args, a ≠ [] ∧ (∀ c ∈ a, c ∉ ifs) ∧ glob a = [a] := by
  have hfree : ∀ a ∈ args, ∀ c ∈ a, c ∉ ifs := by
    intro a ha
    rw [← h] at ha
    obtain ⟨b, _, ha⟩ := List.mem_flatMap.mp ha
    obtain ⟨w, hw, ha⟩ := List.mem_flatMap.mp ha
    rcases hfiles w with hself | ⟨_, hnames⟩
    · rw [hself, List.mem_singleton] at ha
      subst ha
      exact fields_free ifs b a hw
    · exact (hnames a ha).2
  have hne : ∀ a ∈ args, a ≠ [] := by
    intro a ha hnil
    subst hnil
    rw [← h] at ha
    obtain ⟨b, hb, ha⟩ := List.mem_flatMap.mp ha
    by_cases hbne : b = []
    · subst hbne
      cases ha
    · rw [splitGlob, fields_plain hbne (hfree b hb), List.flatMap_singleton] at ha
      rcases hfiles b with hself | ⟨_, hnames⟩
      · rw [hself, List.mem_singleton] at ha
        exact hbne ha.symm
      · exact (hnames [] ha).1 rfl
  have hone : ∀ a ∈ args, splitGlob ifs glob a = glob a := fun a ha => by
    rw [splitGlob, fields_plain (hne a ha) (hfree a ha), List.flatMap_singleton]
  have hsome : ∀ a ∈ args, splitGlob ifs glob a ≠ [] := by
    intro a ha
    rw [hone a ha]
    rcases hfiles a with hself | ⟨hsome, _⟩
    · simp [hself]
    · exact hsome
  intro a ha
  exact ⟨hne a ha, hfree a ha, (hone a ha).symm.trans (flatMap_eq_self hsome h a ha)⟩

end Glob

end ShellFields
