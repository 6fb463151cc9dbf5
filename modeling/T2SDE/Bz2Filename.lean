import T2SDE.Lib.Endings

namespace T2SDE.Download

open Text Endings

/-- The endings of the last rule of `bz2filename` with what they become. -/
def convEnds : List (Str × Str) :=
  (["gz", "Z", "xz", "bz2", "bz", "lz"].map String.toList).flatMap fun e =>
    [('.' :: 't' :: e, ".tzst".toList), ('.' :: e, ".zst".toList)]

def convName (f : Str) : Str :=
  match convEnds.find? fun e => endsWith f e.1 with
  | some e => replaceEnd e.1 e.2 f
  | none => f

/-- `${gzfile%.gpg}`, and the second rule of `bz2filename`. -/
def stripGpg (f : Str) : Str := replaceEnd ".gpg".toList [] f

/-- `bz2filename` of one name. -/
def bz2filename (f : Str) : Str :=
  convName (stripGpg (replaceEnd ".tar".toList ".tar.zst".toList f))

/-- The branches of the `case` over the file name in `download_file` with the decompressors. -/
inductive Format
  | gz
  | lz
  | tar
  | z
  | xz
  | bz2
  | zst
  | raw
  deriving DecidableEq

/-- The branches that decompress and compress again. -/
def Format.isConverted : Format → Bool
  | .gz | .lz | .z | .xz | .bz2 => true
  | .tar | .zst | .raw => false

/-- The first branch of `download_file` that a file name matches. -/
def caseOf (gzfile : Str) : Format :=
  if endsWith gzfile ".gz".toList || endsWith gzfile ".tgz".toList then .gz
  else if endsWith gzfile ".lz".toList || endsWith gzfile ".tlz".toList then .lz
  else if endsWith gzfile ".tar".toList then .tar
  else if endsWith gzfile ".Z".toList then .z
  else if endsWith gzfile ".xz".toList then .xz
  -- the last of the three patterns has no star in the source
  else if endsWith gzfile ".bz2".toList || endsWith gzfile ".tbz2".toList || gzfile == ".tbz".toList then .bz2
  else if endsWith gzfile ".zstd".toList || endsWith gzfile ".zst".toList ||
    endsWith gzfile ".tzst".toList then
    .zst
  else .raw

/-- The endings that the two rule lists know. -/
def knownEnds : List Str :=
  convEnds.map Prod.fst ++ [".tar", ".gpg", ".zstd", ".zst", ".tzst"].map String.toList

/-- The endings behind a star in the branches of `download_file`. -/
def caseEnds : List (Str × Format) :=
  [(".gz".toList, .gz), (".tgz".toList, .gz), (".lz".toList, .lz), (".tlz".toList, .lz),
    (".tar".toList, .tar), (".Z".toList, .z), (".xz".toList, .xz), (".bz2".toList, .bz2),
    (".tbz2".toList, .bz2), (".zstd".toList, .zst), (".zst".toList, .zst), (".tzst".toList, .zst)]

/-- The endings that the last rule of `bz2filename` replaces and no branch of `download_file` decompresses. -/
def missedEnds : List Str := [".bz", ".tbz", ".tZ", ".txz"].map String.toList

/-- How the tables fit together. -/
structure TablesFit : Prop where
  unrelated : Unrelated knownEnds = true
  convKeys : (convEnds.map Prod.fst).Nodup
  caseKeys : (caseEnds.map Prod.fst).Nodup
  known : [".tar", ".gpg", ".zst"].all (fun e => knownEnds.contains e.toList) = true
  caseKnown : caseEnds.all (fun p => knownEnds.contains p.1) = true
  tarCase : caseEnds.contains (".tar".toList, .tar) = true
  zstCase : caseEnds.contains (".zst".toList, .zst) = true
  tarOnly : caseEnds.all (fun p => p.2 != .tar || p.1 == ".tar".toList) = true
  converted : caseEnds.all (fun p => !p.2.isConverted || (convEnds.map Prod.fst).contains p.1) = true
  newZst : convEnds.all (fun p => caseEnds.contains (p.2, .zst)) = true
  newPlain : convEnds.all (fun p => p.2 != ".gpg".toList) = true
  oldDot : convEnds.all (fun p => p.1.head? == some '.') = true
  oldLength : convEnds.all (fun p => p.1.length ≤ 5) = true
  oldOther : convEnds.all (fun p => p.1 != ".zst".toList) = true
  growth : convEnds.all (fun p => p.2.length ≤ p.1.length + 4) = true
  missed : convEnds.all (fun p => missedEnds.contains p.1 ||
    caseEnds.any fun q => q.1 == p.1 && q.2.isConverted) = true
  missedConv : missedEnds.all (fun e => (convEnds.map Prod.fst).contains e) = true
  missedCase : missedEnds.all (fun e => !(caseEnds.map Prod.fst).contains e) = true

theorem tablesFit : TablesFit where
  unrelated := by decide +kernel
  convKeys := by decide +kernel
  caseKeys := by decide +kernel
  known := by decide +kernel
  caseKnown := by decide +kernel
  tarCase := by decide +kernel
  zstCase := by decide +kernel
  tarOnly := by decide +kernel
  converted := by decide +kernel
  newZst := by decide +kernel
  newPlain := by decide +kernel
  oldDot := by decide +kernel
  oldLength := by decide +kernel
  oldOther := by decide +kernel
  growth := by decide +kernel
  missed := by decide +kernel
  missedConv := by decide +kernel
  missedCase := by decide +kernel

section Rules

variable {f g e new : Str} {format : Format}

/-- A name has at most one of the known endings. -/
theorem endsWith_known {a b : Str} (h : endsWith f a = true) (ha : a ∈ knownEnds) (hb : b ∈ knownEnds)
    (hne : a ≠ b) : endsWith f b = false :=
  endsWith_unique (TablesFit.unrelated tablesFit) h ha hb hne

theorem known_ends {x : String} (hx : x ∈ [".tar", ".gpg", ".zst"]) : x.toList ∈ knownEnds :=
  List.contains_iff_mem.mp (List.all_eq_true.mp (TablesFit.known tablesFit) x hx)

theorem convEnds_known {p : Str × Str} (hp : p ∈ convEnds) : p.1 ∈ knownEnds :=
  List.mem_append_left _ (List.mem_map_of_mem hp)

theorem caseEnds_known {p : Str × Format} (hp : p ∈ caseEnds) : p.1 ∈ knownEnds :=
  List.contains_iff_mem.mp (List.all_eq_true.mp (TablesFit.caseKnown tablesFit) p hp)

theorem convName_of_ends (he : (e, new) ∈ convEnds) (h : endsWith f e = true) :
    convName f = replaceEnd e new f := by
  rw [convName, find_ends (TablesFit.unrelated tablesFit) (TablesFit.convKeys tablesFit) (fun _ =>
    convEnds_known) he h]

theorem convName_of_none (h : ∀ p ∈ convEnds, endsWith f p.1 = false) : convName f = f := by
  rw [convName, find_ends_none h]

theorem caseOf_eq (h : f ≠ ".tbz".toList) : caseOf f = ofEnds caseEnds .raw f := by
  have htbz : (f == ".tbz".toList) = false := beq_eq_false_iff_ne.mpr h
  simp only [caseOf, htbz, Bool.or_false, caseEnds, ofEnds_cons, ofEnds_nil, Bool.or_eq_true, ite_or]

theorem caseOf_of_ends (hf : f ≠ ".tbz".toList) (he : (e, format) ∈ caseEnds) (h : endsWith f e = true) :
    caseOf f = format := by
  rw [caseOf_eq hf, ofEnds_of_ends (TablesFit.unrelated tablesFit) (TablesFit.caseKeys tablesFit)
    (fun _ => caseEnds_known) he h]

theorem caseOf_of_none (hf : f ≠ ".tbz".toList) (h : ∀ p ∈ caseEnds, endsWith f p.1 = false) :
    caseOf f = .raw := by
  rw [caseOf_eq hf, ofEnds_of_none h]

theorem caseOf_cases (hf : f ≠ ".tbz".toList) : caseOf f = .raw ∧ (∀ p ∈ caseEnds, endsWith f p.1 = false) ∨
    ∃ e, (e, caseOf f) ∈ caseEnds ∧ endsWith f e = true := by
  by_cases h : ∀ p ∈ caseEnds, endsWith f p.1 = false
  · exact .inl ⟨caseOf_of_none hf h, h⟩
  · push Not at h
    obtain ⟨p, hp, hends⟩ := h
    rw [Bool.ne_false_iff] at hends
    exact .inr ⟨p.1, by rwa [caseOf_of_ends hf hp hends], hends⟩

theorem convName_cases (f : Str) : convName f = f ∧ (∀ p ∈ convEnds, endsWith f p.1 = false) ∨
    ∃ e new, (e, new) ∈ convEnds ∧ endsWith f e = true ∧ convName f = replaceEnd e new f := by
  by_cases h : ∀ p ∈ convEnds, endsWith f p.1 = false
  · exact .inl ⟨convName_of_none h, h⟩
  · push Not at h
    obtain ⟨p, hp, hends⟩ := h
    rw [Bool.ne_false_iff] at hends
    exact .inr ⟨p.1, p.2, hp, hends, convName_of_ends hp hends⟩

theorem convName_of_known (h : endsWith f e = true) (he : e ∈ knownEnds) (hnot : ∀ p ∈ convEnds, p.1 ≠ e) :
    convName f = f :=
  convName_of_none fun p hp => endsWith_known h he (convEnds_known hp) (hnot p hp).symm

theorem bz2filename_eq (f : Str) : bz2filename f =
    if endsWith f ".tar".toList then f ++ ".zst".toList else convName (stripGpg f) := by
  unfold bz2filename
  split_ifs with htar
  · obtain ⟨stem, rfl⟩ := endsWith_iff.mp htar
    have hends : endsWith (stem ++ ".tar.zst".toList) ".zst".toList = true := by
      rw [endsWith_iff]
      exact (List.suffix_append ".tar".toList ".zst".toList).trans (List.suffix_append stem _)
    have hother (p : Str × Str) (hp : p ∈ convEnds) : p.1 ≠ ".zst".toList := by
      simpa using List.all_eq_true.mp (TablesFit.oldOther tablesFit) p hp
    rw [replaceEnd_append, stripGpg,
      replaceEnd_of_not (endsWith_known hends (known_ends (by simp)) (known_ends (by simp)) (by decide)),
      convName_of_known hends (known_ends (by simp)) hother, List.append_assoc]
    rfl
  · rw [replaceEnd_of_not (by simpa using htar)]

theorem convEnds_length (he : (e, new) ∈ convEnds) : new.length ≤ e.length + 4 := 
  of_decide_eq_true (List.all_eq_true.mp (TablesFit.growth tablesFit) (e, new) he)

/-- A final name is at most four characters longer. -/
theorem bz2filename_length (f : Str) : (bz2filename f).length ≤ f.length + 4 := by
  rw [bz2filename_eq]
  split_ifs with htar
  · simp
  · have hstrip : (stripGpg f).length ≤ f.length + 0 := replaceEnd_length (by decide) f
    rcases convName_cases (stripGpg f) with ⟨h, _⟩ | ⟨e, new, he, _, h⟩
    · rw [h]
      omega
    · rw [h]
      exact (replaceEnd_length (convEnds_length he) (stripGpg f)).trans (by omega)

/-- Files that are downloaded lie below `download/`. -/
def Requested (f : Str) : Prop := "download/".toList <+: f

theorem replaceEnd_requested (he : e.head? = some '.') (h : Requested f) :
    Requested (replaceEnd e new f) := by
  unfold replaceEnd
  split_ifs with hend
  · obtain ⟨stem, rfl⟩ := endsWith_iff.mp hend
    rw [List.length_append, Nat.add_sub_cancel, List.take_left]
    rcases Nat.le_total "download/".toList.length stem.length with hlen | hlen
    · exact (List.prefix_of_prefix_length_le h (List.prefix_append stem e) hlen).trans
        (List.prefix_append _ _)
    · -- the ending cannot start inside `download/`, which has no dot
      obtain ⟨t, ht⟩ := List.prefix_of_prefix_length_le (List.prefix_append stem e) h hlen
      cases t with
      | nil =>
        rw [List.append_nil] at ht
        exact ht ▸ List.prefix_append stem new
      | cons c t =>
        rw [Requested, ← ht, List.prefix_append_right_inj] at h
        have hc : some c = e.head? := by
          obtain ⟨u, rfl⟩ := h
          rfl
        have hdot : c = '.' := Option.some.inj (hc.trans he)
        have : '.' ∈ "download/".toList := by
          rw [← ht, hdot]
          simp
        exact absurd this (by decide)
  · exact h

theorem stripGpg_requested (h : Requested f) : Requested (stripGpg f) := replaceEnd_requested rfl h

theorem Requested.ne_tbz (h : Requested f) : f ≠ ".tbz".toList := by
  rintro rfl
  obtain ⟨rest, hrest⟩ := h
  have hhead : some 'd' = some '.' := congrArg List.head? hrest
  simp at hhead

theorem bz2filename_requested (h : Requested f) : Requested (bz2filename f) := by
  rw [bz2filename_eq]
  split_ifs with htar
  · exact List.IsPrefix.trans h (List.prefix_append _ _)
  · have hstrip := stripGpg_requested h
    rcases convName_cases (stripGpg f) with ⟨h, _⟩ | ⟨e, new, he, _, h⟩
    · rwa [h]
    · have hdot := List.all_eq_true.mp (TablesFit.oldDot tablesFit) (e, new) he
      rw [h]
      exact replaceEnd_requested (by simpa using hdot) hstrip

end Rules

section Agreement

variable {f e new : Str} {format : Format}

theorem stripGpg_append (h : endsWith f ".gpg".toList = true) : stripGpg f ++ ".gpg".toList = f := by
  obtain ⟨stem, rfl⟩ := endsWith_iff.mp h
  rw [stripGpg, replaceEnd_append, List.append_nil]

theorem stripGpg_of_not (h : endsWith f ".gpg".toList = false) : stripGpg f = f := replaceEnd_of_not h

theorem stripGpg_of_tar (h : endsWith f ".tar".toList = true) : stripGpg f = f :=
  stripGpg_of_not (endsWith_known h (known_ends (by simp)) (known_ends (by simp)) (by decide))

/-- The three ways to a final name. -/
theorem bz2filename_cases (f : Str) :
    endsWith f ".tar".toList = true ∧ stripGpg f = f ∧ bz2filename f = f ++ ".zst".toList ∨
    endsWith f ".tar".toList = false ∧ (∃ e new, (e, new) ∈ convEnds ∧ endsWith (stripGpg f) e = true ∧
      bz2filename f = replaceEnd e new (stripGpg f)) ∨
    endsWith f ".tar".toList = false ∧ (∀ p ∈ convEnds, endsWith (stripGpg f) p.1 = false) ∧
      bz2filename f = stripGpg f := by
  rw [bz2filename_eq]
  split_ifs with htar
  · exact .inl ⟨htar, stripGpg_of_tar htar, rfl⟩
  · rw [Bool.not_eq_true] at htar
    rcases convName_cases (stripGpg f) with ⟨h, hnone⟩ | ⟨e, new, he, hends, h⟩
    · exact .inr (.inr ⟨htar, hnone, h⟩)
    · exact .inr (.inl ⟨htar, e, new, he, hends, h⟩)

theorem convEnds_new (he : (e, new) ∈ convEnds) : (new, Format.zst) ∈ caseEnds := 
  List.contains_iff_mem.mp (List.all_eq_true.mp (TablesFit.newZst tablesFit) (e, new) he)

theorem convEnds_of_isConverted (he : (e, format) ∈ caseEnds) (h : format.isConverted = true) :
    ∃ new, (e, new) ∈ convEnds := by
  have hkey := List.all_eq_true.mp (TablesFit.converted tablesFit) (e, format) he
  simp only [h, Bool.not_true, Bool.false_or, List.contains_iff_mem, List.mem_map] at hkey
  obtain ⟨⟨e', new⟩, hmem, rfl⟩ := hkey
  exact ⟨new, hmem⟩

theorem convEnds_missed (he : (e, new) ∈ convEnds) :
    e ∈ missedEnds ∨ ∃ format, (e, format) ∈ caseEnds ∧ format.isConverted = true := by
  have hkey := List.all_eq_true.mp (TablesFit.missed tablesFit) (e, new) he
  simp only [Bool.or_eq_true, List.contains_iff_mem, List.any_eq_true, Bool.and_eq_true, beq_iff_eq] at hkey
  rcases hkey with h | ⟨⟨e', format⟩, hmem, rfl, h⟩
  · exact .inl h
  · exact .inr ⟨format, hmem, h⟩

theorem missedEnds_conv (he : e ∈ missedEnds) : ∃ new, (e, new) ∈ convEnds := by
  have hkey := List.contains_iff_mem.mp (List.all_eq_true.mp (TablesFit.missedConv tablesFit) e he)
  obtain ⟨⟨e', new⟩, hmem, rfl⟩ := List.mem_map.mp hkey
  exact ⟨new, hmem⟩

theorem tar_caseEnds : (".tar".toList, Format.tar) ∈ caseEnds :=
  List.contains_iff_mem.mp (TablesFit.tarCase tablesFit)

theorem zst_caseEnds : (".zst".toList, Format.zst) ∈ caseEnds :=
  List.contains_iff_mem.mp (TablesFit.zstCase tablesFit)

theorem tarEnd_of_caseOf (he : (e, Format.tar) ∈ caseEnds) : e = ".tar".toList := by
  simpa using List.all_eq_true.mp (TablesFit.tarOnly tablesFit) (e, Format.tar) he

/-- A final name that the last rule has made is one of a zstd file. -/
theorem caseOf_replaceEnd (hreq : Requested (bz2filename f)) (he : (e, new) ∈ convEnds)
    (hends : endsWith (stripGpg f) e = true) (h : bz2filename f = replaceEnd e new (stripGpg f)) :
    caseOf (bz2filename f) = .zst := by
  refine caseOf_of_ends hreq.ne_tbz (convEnds_new he) ?_
  rw [h]
  exact endsWith_replaceEnd hends

theorem caseOf_append_zst (hreq : Requested (bz2filename f)) (h : bz2filename f = f ++ ".zst".toList) :
    caseOf (bz2filename f) = .zst := by
  refine caseOf_of_ends hreq.ne_tbz zst_caseEnds ?_
  rw [h]
  exact endsWith_append f _

theorem not_ends_of_ends {x : Str} (h : endsWith f e = true) (he : e ∈ knownEnds) (hx : x ∈ knownEnds)
    (hends : endsWith f x = true) : x = e := by
  by_contra hne
  rw [endsWith_known hends hx he hne] at h
  cases h

theorem missedEnds_not_case (he : e ∈ missedEnds) {p : Str × Format} (hp : p ∈ caseEnds) : e ≠ p.1 := by
  have hnot := List.all_eq_true.mp (TablesFit.missedCase tablesFit) e he
  rw [Bool.not_eq_true', ← Bool.not_eq_true, List.contains_iff_mem] at hnot
  rintro rfl
  exact hnot (List.mem_map_of_mem hp)

theorem missedEnds_known (he : e ∈ missedEnds) : e ∈ knownEnds := by
  obtain ⟨new, hmem⟩ := missedEnds_conv he
  exact convEnds_known hmem

theorem caseOf_missed (hf : Requested f) (he : e ∈ missedEnds) (h : endsWith f e = true) : caseOf f = .raw :=
  caseOf_of_none hf.ne_tbz fun _ hp =>
    endsWith_known h (missedEnds_known he) (caseEnds_known hp) (missedEnds_not_case he hp)

theorem caseOf_conv (hf : Requested f) (he : (e, new) ∈ convEnds) (h : endsWith f e = true) :
    e ∈ missedEnds ∧ caseOf f = .raw ∨ (caseOf f).isConverted = true := by
  rcases convEnds_missed he with hmissed | ⟨format, hmem, hconv⟩
  · exact .inl ⟨hmissed, caseOf_missed hf hmissed h⟩
  · exact .inr (by rwa [caseOf_of_ends hf.ne_tbz hmem h])

theorem caseOf_tar (hf : Requested f) : caseOf f = .tar ↔ endsWith f ".tar".toList = true := by
  constructor
  · intro h
    rcases caseOf_cases hf.ne_tbz with ⟨hraw, _⟩ | ⟨e, he, hends⟩
    · rw [hraw] at h
      cases h
    · rw [h] at he
      rwa [tarEnd_of_caseOf he] at hends
  · exact caseOf_of_ends hf.ne_tbz tar_caseEnds

/-- What `bz2filename` makes of a name that a branch of `download_file` converts. -/
theorem bz2filename_of_converted (hf : Requested f) (h : (caseOf (stripGpg f)).isConverted = true) :
    caseOf (bz2filename f) = .zst := by
  have hreq := bz2filename_requested hf
  rcases bz2filename_cases f with ⟨_, _, heq⟩ | ⟨_, e, new, he, hends, heq⟩ | ⟨_, hnone, heq⟩
  · exact caseOf_append_zst hreq heq
  · exact caseOf_replaceEnd hreq he hends heq
  · rcases caseOf_cases (stripGpg_requested hf).ne_tbz with ⟨hraw, _⟩ | ⟨e, he, hends⟩
    · rw [hraw] at h
      cases h
    · obtain ⟨new, hmem⟩ := convEnds_of_isConverted he h
      rw [hnone _ hmem] at hends
      cases hends

theorem bz2filename_of_zst (hf : Requested f) (h : caseOf (stripGpg f) = .zst) :
    bz2filename f = stripGpg f := by
  rcases bz2filename_cases f with ⟨htar, hstrip, _⟩ | ⟨_, e, new, he, hends, _⟩ | ⟨_, _, heq⟩
  · rw [hstrip, (caseOf_tar hf).mpr htar] at h
    cases h
  · rcases caseOf_conv (stripGpg_requested hf) he hends with ⟨_, hraw⟩ | hconv
    · rw [hraw] at h
      cases h
    · rw [h] at hconv
      cases hconv
  · exact heq

theorem bz2filename_of_raw (hf : Requested f) (h : caseOf (stripGpg f) = .raw) :
    bz2filename f = stripGpg f ∨
      (∃ e ∈ missedEnds, endsWith (stripGpg f) e = true) ∧ caseOf (bz2filename f) = .zst := by
  rcases bz2filename_cases f with ⟨htar, hstrip, _⟩ | ⟨_, e, new, he, hends, heq⟩ | ⟨_, _, heq⟩
  · rw [hstrip, (caseOf_tar hf).mpr htar] at h
    cases h
  · rcases caseOf_conv (stripGpg_requested hf) he hends with ⟨hmissed, _⟩ | hconv
    · exact .inr ⟨⟨e, hmissed, hends⟩, caseOf_replaceEnd (bz2filename_requested hf) he hends heq⟩
    · rw [h] at hconv
      cases hconv
  · exact .inl heq

theorem bz2filename_of_tar (hf : Requested f) (h : caseOf (stripGpg f) = .tar) :
    stripGpg f = f ∧ caseOf (bz2filename f) = .zst ∨
      endsWith f ".tar.gpg".toList = true ∧ bz2filename f = stripGpg f := by
  rcases bz2filename_cases f with ⟨_, hstrip, heq⟩ | ⟨_, e, new, he, hends, _⟩ | ⟨htar, _, heq⟩
  · exact .inl ⟨hstrip, caseOf_append_zst (bz2filename_requested hf) heq⟩
  · rcases caseOf_conv (stripGpg_requested hf) he hends with ⟨_, hraw⟩ | hconv
    · rw [hraw] at h
      cases h
    · rw [h] at hconv
      cases hconv
  · have hends := (caseOf_tar (stripGpg_requested hf)).mp h
    have hgpg : endsWith f ".gpg".toList = true := by
      by_contra hnot
      rw [Bool.not_eq_true] at hnot
      rw [stripGpg_of_not hnot, htar] at hends
      cases hends
    refine .inr ⟨?_, heq⟩
    obtain ⟨stem, hstem⟩ := endsWith_iff.mp hends
    rw [← stripGpg_append hgpg, ← hstem, List.append_assoc]
    exact endsWith_append stem _

/-- A final name is not one of a file that is still to be converted. -/
theorem caseOf_bz2filename (hf : Requested f) : (caseOf (bz2filename f)).isConverted = false := by
  have hreq := bz2filename_requested hf
  rcases bz2filename_cases f with ⟨_, _, heq⟩ | ⟨_, e, new, he, hends, heq⟩ | ⟨_, hnone, heq⟩
  · rw [caseOf_append_zst hreq heq]
    rfl
  · rw [caseOf_replaceEnd hreq he hends heq]
    rfl
  · by_contra hconv
    rw [Bool.not_eq_false] at hconv
    rcases caseOf_cases hreq.ne_tbz with ⟨hraw, _⟩ | ⟨e, he, hends⟩
    · rw [hraw] at hconv
      cases hconv
    · obtain ⟨new, hmem⟩ := convEnds_of_isConverted he hconv
      rw [heq, hnone _ hmem] at hends
      cases hends

/-- Only a signed tar ball keeps the ending of a plain one. -/
theorem caseOf_bz2filename_tar (hf : Requested f) :
    caseOf (bz2filename f) = .tar ↔ endsWith f ".tar.gpg".toList = true := by
  have hreq := bz2filename_requested hf
  constructor
  · intro h
    rcases bz2filename_cases f with ⟨_, _, heq⟩ | ⟨_, e, new, he, hends, heq⟩ | ⟨htar, _, heq⟩
    · rw [caseOf_append_zst hreq heq] at h
      cases h
    · rw [caseOf_replaceEnd hreq he hends heq] at h
      cases h
    · rw [heq] at h
      rcases bz2filename_of_tar hf h with ⟨hstrip, _⟩ | ⟨hends, _⟩
      · rw [hstrip, caseOf_tar hf, htar] at h
        cases h
      · exact hends
  · intro h
    obtain ⟨stem, rfl⟩ := endsWith_iff.mp h
    have heq : stem ++ ".tar.gpg".toList = stem ++ ".tar".toList ++ ".gpg".toList := by
      rw [List.append_assoc]
      rfl
    have hstrip : stripGpg (stem ++ ".tar.gpg".toList) = stem ++ ".tar".toList := by
      rw [heq, stripGpg, replaceEnd_append, List.append_nil]
    have htar : caseOf (stripGpg (stem ++ ".tar.gpg".toList)) = .tar := by
      rw [hstrip, caseOf_tar (hstrip ▸ stripGpg_requested hf)]
      exact endsWith_append _ _
    rcases bz2filename_of_tar hf htar with ⟨hsame, _⟩ | ⟨_, hbz⟩
    · rw [hstrip] at hsame
      simp at hsame
    · rw [hbz, htar]

theorem bz2filename_not_missed (f : Str) (he : e ∈ missedEnds) : endsWith (bz2filename f) e = false := by
  have hzst {new : Str} (hnew : (new, Format.zst) ∈ caseEnds) (h : endsWith (bz2filename f) new = true) :
      endsWith (bz2filename f) e = false :=
    endsWith_known h (caseEnds_known hnew) (missedEnds_known he)
      (missedEnds_not_case he hnew).symm
  rcases bz2filename_cases f with ⟨_, _, heq⟩ | ⟨_, x, new, hx, hends, heq⟩ | ⟨_, hnone, heq⟩
  · exact hzst zst_caseEnds (heq ▸ endsWith_append f _)
  · exact hzst (convEnds_new hx) (heq ▸ endsWith_replaceEnd hends)
  · obtain ⟨new, hmem⟩ := missedEnds_conv he
    rw [heq]
    exact hnone _ hmem

/-- A name that is final already carries no signature. -/
theorem endsWith_gpg_of_final (h : bz2filename f = f) : endsWith f ".gpg".toList = false := by
  by_contra hgpg
  rw [Bool.not_eq_false] at hgpg
  have hlen := congrArg List.length (stripGpg_append hgpg)
  rw [List.length_append] at hlen
  rcases bz2filename_cases f with ⟨_, hstrip, _⟩ | ⟨_, e, new, he, hends, heq⟩ | ⟨_, _, heq⟩
  · rw [hstrip] at hlen
    simp at hlen
  · rw [h] at heq
    have hnew : endsWith f new = true := heq ▸ endsWith_replaceEnd hends
    have hgpg' := not_ends_of_ends hgpg (known_ends (by simp)) (caseEnds_known (convEnds_new he)) hnew
    have hne := List.all_eq_true.mp (TablesFit.newPlain tablesFit) (e, new) he
    exact absurd hgpg' (by simpa using hne)
  · rw [← heq, h] at hlen
    simp at hlen

end Agreement

end T2SDE.Download
