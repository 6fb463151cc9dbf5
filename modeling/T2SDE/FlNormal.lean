import T2SDE.FlRealpath

namespace T2SDE.FlWrapper

open Text PathName

section Scanner

/-- What `sort_of_realpath` has written: components with their slashes, and a last one without. -/
structure Scan where
  kept : List Str
  opened : Str

def Scan.text (s : Scan) : Str := '/' :: (s.kept.flatMap (· ++ ['/']) ++ s.opened)

def Scan.pop (s : Scan) : Scan where
  kept := if s.opened = [] then s.kept.dropLast else s.kept
  opened := []

/-- A component of the path. The scanner looks for dots in front of a slash, wherever the component begins. -/
def Scan.enter (s : Scan) (component : Str) : Scan :=
  if ['.', '.'] <:+ component then Scan.pop { s with opened := s.opened ++ component.dropLast.dropLast }
  else if ['.'] <:+ component then { s with opened := s.opened ++ component.dropLast }
  else { kept := s.kept ++ [s.opened ++ component], opened := [] }

def Scan.result (s : Scan) : List Str := if s.opened = [] then s.kept else s.kept ++ [s.opened]

def scan (path : Str) : Scan := (components path).foldl Scan.enter ⟨[], []⟩

end Scanner

section Loop

variable {fuel : Nat} {dst src u v w : Str} {c : Char} {s : Scan}

/-- The rest of the component that a text begins with. -/
def segment (src : Str) : Str := src.takeWhile (· != '/')

theorem segment_append (hu : '/' ∉ u) (v : Str) : segment (u ++ v) = u ++ segment v := by
  refine List.takeWhile_append_of_pos fun d hd => ?_
  have hne : d ≠ '/' := fun h => hu (h ▸ hd)
  simpa using hne

/-- A character is copied unless it is a slash or begins a dot component. -/
theorem realpathLoop_copy (hroom : dst.length < pathMax) (hc : c ≠ '/')
    (hdot : c = '.' → segment src ≠ [] ∧ segment src ≠ ['.']) :
    realpathLoop (fuel + 1) dst (c :: src) = realpathLoop fuel (dst ++ [c]) src := by
  rw [realpathLoop.eq_def]
  simp only [if_neg (Nat.not_le.mpr hroom)]
  split
  next heq => cases heq
  next heq => exact absurd (List.cons.inj heq).1 hc
  next heq =>
    obtain ⟨rfl, rfl⟩ := List.cons.inj heq
    exact absurd rfl (hdot rfl).2
  next heq =>
    obtain ⟨rfl, rfl⟩ := List.cons.inj heq
    exact absurd rfl (hdot rfl).2
  next heq =>
    obtain ⟨rfl, rfl⟩ := List.cons.inj heq
    exact absurd rfl (hdot rfl).1
  next heq =>
    obtain ⟨rfl, rfl⟩ := List.cons.inj heq
    exact absurd rfl (hdot rfl).1
  next heq =>
    obtain ⟨rfl, rfl⟩ := List.cons.inj heq
    rfl

/-- Slashes that follow each other are copied as one. -/
theorem realpathLoop_slash (hroom : dst.length < pathMax) :
    realpathLoop (fuel + 1) dst ('/' :: src) =
    realpathLoop fuel (dst ++ ['/']) (src.dropWhile (· == '/')) := by
  have hne := Nat.not_le.mpr hroom
  cases src with
  | nil => simp [realpathLoop, hne]
  | cons d src =>
    by_cases hd : d = '/'
    · subst hd
      simp [realpathLoop, hne]
    · simp [realpathLoop, hne, hd]

theorem realpathLoop_dot (hroom : dst.length < pathMax) :
    realpathLoop (fuel + 1) dst ('.' :: '/' :: src) = realpathLoop fuel dst (src.dropWhile (· == '/')) := by
  simp [realpathLoop, Nat.not_le.mpr hroom]

theorem realpathLoop_dotdot (hroom : dst.length < pathMax) :
    realpathLoop (fuel + 1) dst ('.' :: '.' :: '/' :: src) =
      realpathLoop fuel (popComponent dst) (src.dropWhile (· == '/')) := by
  simp [realpathLoop, Nat.not_le.mpr hroom]

theorem realpathLoop_nil : realpathLoop fuel dst [] = dst := by
  cases fuel with
  | zero => rfl
  | succ fuel =>
    rw [realpathLoop]
    split <;> rfl

theorem realpathLoop_dot_end (hroom : dst.length < pathMax) : realpathLoop (fuel + 1) dst ['.'] = dst := by
  simp [realpathLoop, Nat.not_le.mpr hroom]

theorem realpathLoop_dotdot_end (hroom : dst.length < pathMax) :
    realpathLoop (fuel + 1) dst ['.', '.'] = popComponent dst := by
  simp [realpathLoop, Nat.not_le.mpr hroom]

/-- The characters in front of the dots that end a component, or of its end. -/
theorem realpathLoop_copies (hu : '/' ∉ u) (hdot :
    ∀ b, '.' :: b <:+ u → b ++ segment v ≠ [] ∧ b ++ segment v ≠ ['.'])
    (hroom : dst.length + u.length ≤ pathMax) :
    realpathLoop (fuel + u.length) dst (u ++ v) = realpathLoop fuel (dst ++ u) v := by
  induction u generalizing dst with
  | nil => rw [List.append_nil, List.nil_append, List.length_nil, Nat.add_zero]
  | cons c u ih =>
    simp only [List.length_cons] at hroom ⊢
    have hfree : '/' ∉ u := fun h => hu (List.mem_cons_of_mem c h)
    have hc : c ≠ '/' := fun h => hu (h ▸ List.mem_cons_self)
    rw [List.cons_append, ← Nat.add_assoc, realpathLoop_copy (by omega) hc, ih hfree, List.append_assoc]
    · rfl
    · exact fun b hb => hdot b (hb.trans (List.suffix_cons c u))
    · rw [List.length_append, List.length_singleton]
      omega
    · rintro rfl
      rw [segment_append hfree]
      exact hdot u (List.suffix_refl _)

end Loop

section Components

variable {fuel : Nat} {src w rest : Str} {s : Scan}

/-- A component that no dot rule changes. -/
def IsPlain (component : Str) : Prop := IsComponent component ∧ ¬['.'] <:+ component

/-- What the scanner leaves: plain components, and an open one that may be empty. -/
structure Scan.Good (s : Scan) : Prop where
  kept : ∀ c ∈ s.kept, IsPlain c
  noSlash : '/' ∉ s.opened
  noDot : ¬['.'] <:+ s.opened

theorem suffix_append_of_ne_nil {u v t : Str} (hv : v ≠ []) (ht : t.length = 1) : t <:+ u ++ v ↔ t <:+ v := by
  constructor
  · intro h
    exact List.suffix_of_suffix_length_le h (List.suffix_append u v)
      (by rw [ht]; exact List.length_pos_iff.mpr hv)
  · exact fun h => h.trans (List.suffix_append u v)

/-- How a component ends: in two dots, in one, or in none. -/
theorem component_cases (hw : IsComponent w) :
    (∃ u, w = u ++ ['.', '.']) ∨ (∃ u, w = u ++ ['.'] ∧ ¬['.'] <:+ u ∧ ¬['.', '.'] <:+ w) ∨
      ¬['.'] <:+ w ∧ ¬['.', '.'] <:+ w := by
  by_cases htwo : ['.', '.'] <:+ w
  · obtain ⟨u, rfl⟩ := htwo
    exact .inl ⟨u, rfl⟩
  by_cases hone : ['.'] <:+ w
  · obtain ⟨u, rfl⟩ := hone
    refine .inr (.inl ⟨u, rfl, ?_, htwo⟩)
    rintro ⟨v, rfl⟩
    exact htwo ⟨v, by simp⟩
  · exact .inr (.inr ⟨hone, htwo⟩)

theorem enter_dotdot (s : Scan) (u : Str) :
    s.enter (u ++ ['.', '.']) = Scan.pop { s with opened := s.opened ++ u } := by
  have hdrop : (u ++ ['.', '.']).dropLast.dropLast = u := by
    rw [show u ++ ['.', '.'] = (u ++ ['.']) ++ ['.'] by simp, List.dropLast_concat, List.dropLast_concat]
  rw [Scan.enter, if_pos (List.suffix_append _ _), hdrop]

theorem enter_dot (s : Scan) {u : Str} (h : ¬['.', '.'] <:+ u ++ ['.']) :
    s.enter (u ++ ['.']) = { s with opened := s.opened ++ u } := by
  rw [Scan.enter, if_neg h, if_pos (List.suffix_append _ _), List.dropLast_concat]

theorem enter_plain (s : Scan) (hone : ¬['.'] <:+ w) (htwo : ¬['.', '.'] <:+ w) :
    s.enter w = { kept := s.kept ++ [s.opened ++ w], opened := [] } := by
  rw [Scan.enter, if_neg htwo, if_neg hone]

theorem Scan.Good.opened (hs : s.Good) {u : Str} (hslash : '/' ∉ u) (hdot : ¬['.'] <:+ u) :
    Scan.Good { s with opened := s.opened ++ u } where
  kept := hs.kept
  noSlash := by simp [hs.noSlash, hslash]
  noDot := by
    by_cases hu : u = []
    · simpa [hu] using hs.noDot
    · exact fun h => hdot ((suffix_append_of_ne_nil hu rfl).mp h)

theorem Scan.Good.enter (hs : s.Good) (hw : IsComponent w) : (s.enter w).Good := by
  rcases component_cases hw with ⟨u, rfl⟩ | ⟨u, rfl, hu, htwo⟩ | ⟨hone, htwo⟩
  · rw [enter_dotdot]
    refine ⟨?_, by simp [Scan.pop], by simp [Scan.pop]⟩
    intro c hc
    unfold Scan.pop at hc
    simp only at hc
    split_ifs at hc
    · exact hs.kept c (List.dropLast_subset s.kept hc)
    · exact hs.kept c hc
  · rw [enter_dot s htwo]
    exact hs.opened (fun h => hw.2 (List.mem_append_left _ h)) hu
  · rw [enter_plain s hone htwo]
    refine ⟨?_, by simp, by simp⟩
    intro c hc
    rcases List.mem_append.mp hc with hc | hc
    · exact hs.kept c hc
    · rw [List.mem_singleton.mp hc]
      refine ⟨⟨by simp [hw.1], by simp [hs.noSlash, hw.2]⟩, ?_⟩
      exact fun h => hone ((suffix_append_of_ne_nil hw.1 rfl).mp h)

end Components

section Result

variable {fuel : Nat} {dst src u w rest file : Str} {kept : List Str} {s : Scan} {c : Char}

theorem rdropWhile_kept (kept : List Str) (hu : '/' ∉ u) :
    (kept.flatMap (· ++ ['/']) ++ u).rdropWhile (· != '/') = kept.flatMap (· ++ ['/']) := by
  induction u using List.reverseRecOn with
  | nil =>
    rw [List.append_nil]
    rcases List.eq_nil_or_concat' kept with rfl | ⟨ks, k, rfl⟩
    · rfl
    · simp only [List.flatMap_append, List.flatMap_cons, List.flatMap_nil, List.append_nil]
      rw [← List.append_assoc, List.rdropWhile_concat_neg _ _ _ (by decide)]
  | append_singleton u c ih =>
    have hc : c ≠ '/' := fun h => hu (by simp [h])
    rw [← List.append_assoc, List.rdropWhile_concat_pos _ _ _ (by simpa using hc)]
    exact ih fun h => hu (List.mem_append_left _ h)

/-- `..` takes the open component away, or the last one that was kept. -/
theorem popComponent_text (hkept : ∀ c ∈ s.kept, '/' ∉ c) (hopened : '/' ∉ s.opened) :
    popComponent s.text = s.pop.text := by
  rw [Scan.text, popComponent, Scan.pop, Scan.text, List.append_nil]
  by_cases hopen : s.opened = []
  · rw [hopen, List.append_nil, if_pos rfl]
    rcases List.eq_nil_or_concat' s.kept with hk | ⟨ks, k, hk⟩
    · rw [hk]
      rfl
    · have hfree : '/' ∉ k := hkept k (by simp [hk])
      have hflat : (ks ++ [k]).flatMap (· ++ ['/']) = (ks.flatMap (· ++ ['/']) ++ k) ++ ['/'] := by
        simp
      rw [hk, hflat, List.dropLast_concat, List.dropLast_concat, rdropWhile_kept ks hfree]
  · rw [if_neg hopen, List.dropLast_append_of_ne_nil hopen,
      rdropWhile_kept s.kept fun h => hopened (List.dropLast_subset s.opened h)]

theorem absolute_concat (kept : List Str) (w : Str) :
    absolute (kept ++ [w]) = '/' :: (kept.flatMap (· ++ ['/']) ++ w) := by
  rw [absolute]
  congr 1
  induction kept with
  | nil => simp [List.intercalate]
  | cons k ks ih =>
    have hne : ks ++ [w] ≠ [] := by simp
    obtain ⟨x, xs, hx⟩ := List.exists_cons_of_ne_nil hne
    rw [List.cons_append, hx, List.intercalate_cons_cons, ← hx, ih]
    simp

theorem dropTrailing_keep (hc : c ≠ '/') : dropTrailing ('/' :: (w ++ [c])) = '/' :: (w ++ [c]) := by
  cases w with
  | nil => rfl
  | cons d w =>
    rw [List.cons_append, dropTrailing, List.rdropWhile_concat_neg _ _ _ (by simpa using hc)]

theorem dropTrailing_slash (hc : c ≠ '/') :
    dropTrailing ('/' :: (w ++ [c] ++ ['/'])) = '/' :: (w ++ [c]) := by
  cases w with
  | nil => rfl
  | cons d w =>
    rw [List.cons_append, List.cons_append, dropTrailing, List.rdropWhile_concat_pos _ _ _ (by decide),
      List.rdropWhile_concat_neg _ _ _ (by simpa using hc)]

theorem IsPlain.last (h : IsPlain w) : ∃ v c, w = v ++ [c] ∧ c ≠ '/' ∧ c ≠ '.' := by
  rcases List.eq_nil_or_concat' w with rfl | ⟨v, c, rfl⟩
  · exact absurd rfl h.1.1
  · refine ⟨v, c, rfl, ?_, ?_⟩
    · rintro rfl
      exact h.1.2 (by simp)
    · rintro rfl
      exact h.2 (List.suffix_append v ['.'])

theorem Scan.Good.plain (hs : s.Good) : ∀ c ∈ s.result, IsPlain c := by
  unfold Scan.result
  split_ifs with hopen
  · exact hs.kept
  · intro c hc
    rcases List.mem_append.mp hc with hc | hc
    · exact hs.kept c hc
    · rw [List.mem_singleton.mp hc]
      exact ⟨⟨hopen, hs.noSlash⟩, hs.noDot⟩

theorem dropTrailing_text (hs : s.Good) : dropTrailing s.text = absolute s.result := by
  have hplain := hs.plain
  rw [Scan.text]
  unfold Scan.result at hplain ⊢
  split_ifs at hplain ⊢ with hopen
  · rw [hopen, List.append_nil]
    rcases List.eq_nil_or_concat' s.kept with hk | ⟨ks, k, hk⟩
    · rw [hk]
      rfl
    · obtain ⟨v, c, rfl, hc, -⟩ := (hplain k (by simp [hk])).last
      have hflat : (ks ++ [v ++ [c]]).flatMap (· ++ ['/']) =
        (ks.flatMap (· ++ ['/']) ++ v) ++ [c] ++ ['/'] := by
        simp
      rw [hk, hflat, dropTrailing_slash hc, absolute_concat]
      simp
  · obtain ⟨v, c, hv, hc, -⟩ := (hplain s.opened (by simp)).last
    rw [absolute_concat, hv, ← List.append_assoc, dropTrailing_keep hc]

end Result

section Steps

variable {fuel : Nat} {dst src u w rest file : Str} {s : Scan}

theorem text_opened (s : Scan) (u : Str) : Scan.text { s with opened := s.opened ++ u } = s.text ++ u := by
  simp [Scan.text]

theorem text_closed (s : Scan) (w : Str) :
    Scan.text { kept := s.kept ++ [s.opened ++ w], opened := [] } = s.text ++ w ++ ['/'] := by
  simp [Scan.text]

theorem popComponent_opened (hs : s.Good) (hu : '/' ∉ u) :
    popComponent (s.text ++ u) = (s.enter (u ++ ['.', '.'])).text := by
  rw [enter_dotdot, ← text_opened]
  refine popComponent_text (fun c hc => (hs.kept c hc).1.2) ?_
  exact fun h => (List.mem_append.mp h).elim hs.noSlash hu

theorem length_popComponent (dst : Str) : (popComponent dst).length ≤ dst.length := by
  cases dst with
  | nil => exact Nat.le_refl _
  | cons c dst =>
    have hlen := (List.rdropWhile_prefix (p := (· != '/')) dst.dropLast).length_le
    simp only [List.length_dropLast] at hlen
    simp only [popComponent, List.length_cons]
    omega

theorem copies_dotdot (hslash : '/' ∉ u) (hroom : dst.length + u.length ≤ pathMax) :
    realpathLoop (fuel + u.length) dst (u ++ '.' :: '.' :: rest) =
      realpathLoop fuel (dst ++ u) ('.' :: '.' :: rest) := by
  refine realpathLoop_copies hslash (fun b _ => ?_) hroom
  have hseg : segment ('.' :: '.' :: rest) = '.' :: '.' :: segment rest := by simp [segment]
  rw [hseg]
  refine ⟨by simp, fun h => ?_⟩
  have hlen := congrArg List.length h
  simp only [List.length_append, List.length_cons, List.length_nil] at hlen
  omega

theorem copies_dot (hslash : '/' ∉ u) (hu : ¬['.'] <:+ u) (hrest : segment rest = [])
    (hroom : dst.length + u.length ≤ pathMax) :
    realpathLoop (fuel + u.length) dst (u ++ '.' :: rest) = realpathLoop fuel (dst ++ u) ('.' :: rest) := by
  refine realpathLoop_copies hslash (fun b hb => ?_) hroom
  have hseg : segment ('.' :: rest) = ['.'] := by
    rw [segment, List.takeWhile_cons_of_pos (by decide)]
    exact congrArg (List.cons '.') hrest
  rw [hseg]
  refine ⟨by simp, fun h => hu ?_⟩
  have hb' : b = [] := List.append_left_eq_self.mp h
  rw [hb'] at hb
  exact hb

theorem copies_plain (hslash : '/' ∉ w) (hone : ¬['.'] <:+ w) (hrest : segment rest = [])
    (hroom : dst.length + w.length ≤ pathMax) :
    realpathLoop (fuel + w.length) dst (w ++ rest) = realpathLoop fuel (dst ++ w) rest := by
  refine realpathLoop_copies hslash (fun b hb => ?_) hroom
  rw [hrest, List.append_nil]
  constructor
  · rintro rfl
    exact hone hb
  · rintro rfl
    exact hone ((List.suffix_cons '.' ['.']).trans hb)

theorem segment_slash (rest : Str) : segment ('/' :: rest) = [] := by simp [segment]

/-- One component and the slashes behind it. -/
theorem realpathLoop_component (hs : s.Good) (hw : IsComponent w)
    (hfuel : w.length + 1 + rest.length ≤ fuel) (hroom : s.text.length + w.length < pathMax) :
    ∃ left, rest.length ≤ left ∧ (s.enter w).text.length ≤ s.text.length + w.length + 1 ∧
      realpathLoop fuel s.text (w ++ '/' :: rest) =
        realpathLoop left (s.enter w).text (rest.dropWhile (· == '/')) := by
  rcases component_cases hw with ⟨u, rfl⟩ | ⟨u, rfl, hu, htwo⟩ | ⟨hone, htwo⟩
  · have hslash : '/' ∉ u := fun h => hw.2 (List.mem_append_left _ h)
    simp only [List.length_append, List.length_cons, List.length_nil] at hfuel hroom ⊢
    obtain ⟨left, rfl⟩ : ∃ left, fuel = left + 1 + u.length := ⟨fuel - 1 - u.length, by omega⟩
    have hpop := popComponent_opened hs hslash
    refine ⟨left, by omega, ?_, ?_⟩
    · rw [← hpop]
      refine (length_popComponent _).trans ?_
      rw [List.length_append]
      omega
    · rw [List.append_assoc, List.cons_append, List.cons_append, List.nil_append,
        copies_dotdot hslash (by omega), realpathLoop_dotdot (by rw [List.length_append]; omega), hpop]
  · have hslash : '/' ∉ u := fun h => hw.2 (List.mem_append_left _ h)
    simp only [List.length_append, List.length_cons, List.length_nil] at hfuel hroom ⊢
    obtain ⟨left, rfl⟩ : ∃ left, fuel = left + 1 + u.length := ⟨fuel - 1 - u.length, by omega⟩
    rw [enter_dot s htwo, text_opened]
    refine ⟨left, by omega, by rw [List.length_append]; omega, ?_⟩
    rw [List.append_assoc, List.cons_append, List.nil_append,
      copies_dot hslash hu (segment_slash rest) (by omega),
      realpathLoop_dot (by rw [List.length_append]; omega)]
  · obtain ⟨left, rfl⟩ : ∃ left, fuel = left + 1 + w.length := ⟨fuel - 1 - w.length, by omega⟩
    rw [enter_plain s hone htwo, text_closed]
    refine ⟨left, by omega, by simp only [List.length_append, List.length_singleton]; omega, ?_⟩
    rw [copies_plain hw.2 hone (segment_slash rest) (by omega),
      realpathLoop_slash (by rw [List.length_append]; omega)]

/-- The last component, with no slash behind it. -/
theorem realpathLoop_last (hs : s.Good) (hw : IsComponent w) (hfuel : w.length ≤ fuel)
    (hroom : s.text.length + w.length ≤ pathMax) :
    dropTrailing (realpathLoop fuel s.text w) = absolute (s.enter w).result := by
  have hgood := hs.enter hw
  rcases component_cases hw with ⟨u, rfl⟩ | ⟨u, rfl, hu, htwo⟩ | ⟨hone, htwo⟩
  · have hslash : '/' ∉ u := fun h => hw.2 (List.mem_append_left _ h)
    simp only [List.length_append, List.length_cons, List.length_nil] at hfuel hroom
    obtain ⟨left, rfl⟩ : ∃ left, fuel = left + 1 + u.length := ⟨fuel - 1 - u.length, by omega⟩
    rw [copies_dotdot hslash (by omega), realpathLoop_dotdot_end (by rw [List.length_append]; omega)]
    rw [popComponent_opened hs hslash, dropTrailing_text hgood]
  · have hslash : '/' ∉ u := fun h => hw.2 (List.mem_append_left _ h)
    simp only [List.length_append, List.length_cons, List.length_nil] at hfuel hroom
    obtain ⟨left, rfl⟩ : ∃ left, fuel = left + 1 + u.length := ⟨fuel - 1 - u.length, by omega⟩
    rw [copies_dot hslash hu rfl (by omega), realpathLoop_dot_end (by rw [List.length_append]; omega)]
    rw [← dropTrailing_text hgood, enter_dot s htwo, text_opened]
  · obtain ⟨left, rfl⟩ : ∃ left, fuel = left + w.length := ⟨fuel - w.length, by omega⟩
    have hcopy : realpathLoop (left + w.length) s.text (w ++ []) = realpathLoop left (s.text ++ w) [] :=
      copies_plain hw.2 hone rfl hroom
    rw [List.append_nil] at hcopy
    rw [hcopy, realpathLoop_nil, ← text_opened, dropTrailing_text (hs.opened hw.2 hone),
      enter_plain s hone htwo]
    have hne : s.opened ++ w ≠ [] := by simp [hw.1]
    rw [Scan.result, if_neg hne, Scan.result, if_pos rfl]

theorem Scan.Good.start : Scan.Good ⟨[], []⟩ := ⟨by simp, by simp, by simp⟩

/-- A path that does not start with a slash is a component, and a slash and a rest behind it or nothing. -/
theorem path_cases (hne : src ≠ []) (hhead : src.head? ≠ some '/') :
    ∃ w, IsComponent w ∧ (src = w ∨ ∃ rest, src = w ++ '/' :: rest) := by
  refine ⟨segment src, ⟨?_, ?_⟩, ?_⟩
  · obtain ⟨c, src, rfl⟩ := List.exists_cons_of_ne_nil hne
    have hc : c ≠ '/' := fun h => hhead (by rw [h]; rfl)
    rw [segment, List.takeWhile_cons_of_pos (by simpa using hc)]
    exact List.cons_ne_nil _ _
  · intro h
    exact absurd (List.mem_takeWhile_imp h) (by decide)
  · have hsplit := List.takeWhile_append_dropWhile (p := (· != '/')) (l := src)
    cases hrest : src.dropWhile (· != '/') with
    | nil =>
      rw [hrest, List.append_nil] at hsplit
      exact .inl hsplit.symm
    | cons c rest =>
      have hc : c = '/' := by
        have hstop := List.head?_dropWhile_not (· != '/') src
        simpa [hrest] using hstop
      rw [hrest, hc] at hsplit
      exact .inr ⟨rest, hsplit.symm⟩

/-- From the start of a component the loop leaves what the fold over the components leaves. -/
theorem realpathLoop_scan (hs : s.Good) (hhead : src.head? ≠ some '/') (hfuel : src.length ≤ fuel)
    (hroom : s.text.length + src.length ≤ pathMax) :
    dropTrailing (realpathLoop fuel s.text src) = absolute ((components src).foldl Scan.enter s).result := by
  induction hn : src.length using Nat.strong_induction_on generalizing src s fuel with
  | h n ih =>
    by_cases hne : src = []
    · rw [hne, realpathLoop_nil, dropTrailing_text hs]
      rfl
    obtain ⟨w, hw, rfl | ⟨rest, rfl⟩⟩ := path_cases hne hhead
    · rw [components_single hw, realpathLoop_last hs hw hfuel hroom]
      rfl
    · simp only [List.length_append, List.length_cons] at hfuel hroom hn
      have henough : w.length + 1 + rest.length ≤ fuel := by omega
      obtain ⟨left, hleft, hgrow, hrun⟩ := realpathLoop_component hs hw henough (by omega)
      have hskip := (List.dropWhile_suffix (l := rest) (· == '/')).length_le
      rw [hrun, components_slash hw, List.foldl_cons, ← components_dropWhile]
      refine ih _ (by omega) (hs.enter hw) ?_ (by omega) (by omega) rfl
      intro h
      have hstop := List.head?_dropWhile_not (· == '/') rest
      rw [h] at hstop
      exact absurd hstop (by decide)

/-- What `sort_of_realpath` leaves of an absolute path. -/
theorem sortOfRealpath_eq (habs : file.head? = some '/') (hlen : file.length < pathMax) :
    sortOfRealpath file = absolute (scan file).result := by
  obtain ⟨src, rfl⟩ := List.head?_eq_some_iff.mp habs
  have hcomp : components ('/' :: src) = components (src.dropWhile (· == '/')) := by
    rw [components_dropWhile, components, tokens_cons_sep rfl, components]
  have hskip := (List.dropWhile_suffix (l := src) (· == '/')).length_le
  have hstart : Scan.text ⟨[], []⟩ = ['/'] := rfl
  simp only [List.length_cons] at hlen
  rw [sortOfRealpath, List.length_cons, realpathLoop_slash (by decide), List.nil_append, ← hstart,
    realpathLoop_scan Scan.Good.start ?_ (by omega) ?_, scan, hcomp]
  · intro h
    have hstop := List.head?_dropWhile_not (· == '/') src
    rw [h] at hstop
    exact absurd hstop (by decide)
  · rw [hstart, List.length_singleton]
    omega

end Steps

end T2SDE.FlWrapper
