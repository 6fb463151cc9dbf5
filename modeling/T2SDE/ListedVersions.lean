import Mathlib.Algebra.GroupWithZero.Nat
import Mathlib.Data.List.Perm.Subperm
import T2SDE.UpdateList

namespace T2SDE.Version

open Text CString

/-- The suffixes that `main` pushes. -/
def knownSuffixes : List Str :=
  [".tar.zst".toList, ".tar.bz2".toList, ".tar.xz".toList, ".tar.gz".toList, ".tar.lz".toList, ".tzst".toList,
    ".tbz2".toList, ".tbz".toList, ".tgz".toList, ".bz2".toList, ".tlz".toList, ".gz".toList, ".zip".toList,
    ".xz".toList, ".zst".toList, ".lz".toList]

/-- The versions that `ParseList` prints as matches. -/
def candidates (suffixes : List Str) (opts : ParseOptions) (file page : Str) : List Str :=
  keptVersions opts (pageOffers suffixes opts file page)

/-- The first suffix of the table that occurs in the file name. -/
def firstSuffix (suffixes : List Str) (file : Str) : Option Str :=
  suffixes.find? fun test => (rfind test file).isSome

/-- A version that is found in its token: the suffix is the one of the file name and stands in the token for
the first time at its end, and the version is the one that is taken from the text in front of it. -/
structure Readable (suffixes : List Str) (opts : ParseOptions) (lead own suffix v : Str) : Prop where
  known : (firstSuffix suffixes (lead ++ own ++ suffix)).getD [] = suffix
  file : opts.noPrefix = true ∨ extractFromFilename (lead ++ own) = own
  ends : suffix ≠ []
  first : find suffix (lead ++ v ++ suffix) 1 = some (lead ++ v).length
  version : extractFromFilename (lead ++ v) = v

/-- The candidates that a page of tokens calls for. -/
theorem found_candidates (behind : Str → Nat → Char) (suffixes : List Str) (opts : ParseOptions)
    (file page : Str) :
    ((pageOffers suffixes opts file page).foldl (addVersion behind opts) ⟨[], []⟩).versions =
      candidates suffixes opts file page :=
  addVersion_versions behind opts _ _

section Find

variable {pat s : Str} {start i : Nat}

theorem find_eq_some : find pat s start = some i ↔
    start ≤ i ∧ i ≤ s.length ∧ pat <+: s.drop i ∧ ∀ j, start ≤ j → j < i → ¬pat <+: s.drop j := by
  rw [find, List.find?_range_eq_some]
  simp only [Bool.and_eq_true, decide_eq_true_eq, List.isPrefixOf_iff_prefix, List.mem_range, Nat.lt_succ_iff]
  constructor
  · rintro ⟨⟨hstart, hpre⟩, hle, hfirst⟩
    refine ⟨hstart, hle, hpre, fun j hj hlt hother => ?_⟩
    have := hfirst j hlt
    simp [hj, List.isPrefixOf_iff_prefix.mpr hother] at this
  · rintro ⟨hstart, hle, hpre, hfirst⟩
    refine ⟨⟨hstart, hpre⟩, hle, fun j hlt => ?_⟩
    by_cases hj : start ≤ j
    · have hnot := hfirst j hj hlt
      rw [← List.isPrefixOf_iff_prefix] at hnot
      simp [hnot]
    · simp [hj]

theorem find_start (h : pat <+: s) : find pat s 0 = some 0 :=
  find_eq_some.mpr ⟨Nat.le_refl 0, Nat.zero_le _, h, fun _ _ hlt => absurd hlt (Nat.not_lt_zero _)⟩

theorem last_of_range {p : Nat → Bool} {n : Nat} (hi : i < n) (hp : p i = true)
    (hlast : ∀ j, i < j → j < n → p j = false) : (List.range n).reverse.find? p = some i := by
  induction n with
  | zero => exact absurd hi (Nat.not_lt_zero i)
  | succ n ih =>
    rw [List.range_succ, List.reverse_append, List.reverse_singleton, List.singleton_append]
    by_cases hin : i = n
    · subst hin
      rw [List.find?_cons_of_pos hp]
    · rw [List.find?_cons_of_neg (by simp [hlast n (by omega) (by omega)])]
      exact ih (by omega) fun j hij hjn => hlast j hij (by omega)

/-- What a text ends with occurs there for the last time. -/
theorem rfind_end (pat s : Str) : rfind pat (s ++ pat) = some s.length := by
  have hlt : s.length < (s ++ pat).length + 1 := by
    rw [List.length_append]
    omega
  refine last_of_range hlt (List.isPrefixOf_iff_prefix.mpr (by simp)) fun j hj hlt => ?_
  by_contra h
  have hpre := List.isPrefixOf_iff_prefix.mp (by simpa using h : pat.isPrefixOf ((s ++ pat).drop j) = true)
  have hlen := hpre.length_le
  simp only [List.length_drop, List.length_append] at hlen hlt
  omega

end Find

section File

variable {suffixes : List Str} {opts : ParseOptions} {lead own suffix : Str}

theorem findSome_suffix (file : Str) :
    (suffixes.findSome? fun test => (rfind test file).map fun pos => (test, file.take pos)) =
      (firstSuffix suffixes file).bind fun test => (rfind test file).map fun pos =>
      (test, file.take pos) := by
  rw [firstSuffix]
  induction suffixes with
  | nil => rfl
  | cons test suffixes ih =>
    rw [List.findSome?_cons, List.find?_cons]
    cases h : rfind test file with
    | none => simpa [h] using ih
    | some pos => simp [h]

/-- The file name is taken apart at its suffix. -/
theorem splitSuffix_known (hknown : (firstSuffix suffixes (lead ++ own ++ suffix)).getD [] = suffix) :
    splitSuffix suffixes (lead ++ own ++ suffix) = (suffix, lead ++ own) := by
  rw [splitSuffix, findSome_suffix]
  cases hfirst : firstSuffix suffixes (lead ++ own ++ suffix) with
  | none =>
    rw [hfirst, Option.getD_none] at hknown
    simp [← hknown]
  | some test =>
    rw [hfirst, Option.getD_some] at hknown
    subst hknown
    rw [Option.bind_some, rfind_end, Option.map_some, List.take_left]
    rfl

/-- The prefix is empty if it is switched off, and the text in front of the version if that is found. -/
theorem leading_known (hfile : opts.noPrefix = true ∨ extractFromFilename (lead ++ own) = own) :
    leading opts (lead ++ own) = [] ∨ leading opts (lead ++ own) = lead := by
  rw [leading]
  by_cases hno : opts.noPrefix = true
  · exact .inl (if_pos hno)
  · have hversion := hfile.resolve_left hno
    rw [if_neg hno, hversion, rfind_end]
    exact .inr (by simp)

end File

section Token

variable {lead suffix v found : Str}

theorem offered_nil (lead suffix : Str) : offered lead suffix [] = none := by
  have hnone : ∀ pat start, pat ≠ [] → find pat [] start = none := by
    intro pat start hne
    cases hfind : find pat [] start with
    | none => rfl
    | some i =>
      obtain ⟨_, _, hpre, _⟩ := find_eq_some.mp hfind
      rw [List.drop_nil, List.prefix_nil] at hpre
      exact absurd hpre hne
  rw [offered, matchedText]
  cases find lead [] 0 with
  | none => rfl
  | some idx =>
    by_cases hends : suffix ≠ []
    · simp [hends, hnone]
    · simp [hends, hnone]

/-- What is read of a token in front of a position. -/
def readVersion (s : Str) : Option Str := if extractFromFilename s = [] then none
    else some (extractFromFilename s)

theorem offered_token {token : Str} (hlead : found <+: token) (hends : suffix ≠ []) :
    offered found suffix token = (find suffix token 1).bind fun pos => readVersion (token.take pos) := by
  rw [offered, matchedText, find_start hlead]
  simp only [Option.bind_some, if_pos hends, Nat.zero_add, List.drop_zero, Nat.sub_zero, Option.bind_map]
  rfl

/-- Without a suffix the last character of the token is not read. -/
theorem offered_open {token : Str} (hlead : found <+: token) (hne : token ≠ []) (hblank : ' ' ∉ token) :
    offered found [] token = readVersion token.dropLast := by
  have hnone : find [' '] token 1 = none := by
    cases hfind : find [' '] token 1 with
    | none => rfl
    | some i =>
      obtain ⟨_, _, hpre, _⟩ := find_eq_some.mp hfind
      exact absurd (List.mem_of_mem_drop (hpre.subset List.mem_cons_self)) hblank
  rw [offered, matchedText, find_start hlead]
  simp only [Option.bind_some, ne_eq, not_true_eq_false, if_false, Nat.zero_add, hnone, Option.none_or,
    if_neg hne,
    Option.map_some, List.drop_zero, Nat.sub_zero, ← List.dropLast_eq_take]
  rfl

/-- A version is what it was before, or an end of the text that is scanned. -/
theorem extractLoop_end (version : Str) (before : Char) (s : Str) :
    extractLoop version before s = version ∨ extractLoop version before s <:+ s := by
  induction s generalizing version before with
  | nil => exact .inl rfl
  | cons c s ih =>
    rw [extractLoop]
    split_ifs with hdigit hempty hsep
    · rcases ih (c :: s) c with h | h
      · exact .inr (by rw [h])
      · exact .inr (h.trans (List.suffix_cons c s))
    · exact .inr List.suffix_rfl
    · exact (ih version c).imp_right fun h => h.trans (List.suffix_cons c s)
    · exact (ih version c).imp_right fun h => h.trans (List.suffix_cons c s)

theorem extractLoop_plain {s : Str} (hs : s.any Char.isDigit = false) (before : Char) (t : Str) :
    extractLoop [] before (s ++ t) = extractLoop [] (s.getLastD before) t := by
  induction s generalizing before with
  | nil => rfl
  | cons c s ih =>
    rw [List.any_cons, Bool.or_eq_false_iff] at hs
    rw [List.cons_append, extractLoop, if_neg (by simp [hs.1]), ih hs.2]
    cases s <;> rfl

/-- In a name without digits nothing is found, and behind it a part of the version. -/
theorem extract_behind (hplain : lead.tail.any Char.isDigit = false) (hne : lead ≠ [])
    (hv : v.head?.all Char.isDigit = true) : extractFromFilename (lead ++ v) <:+ v := by
  obtain ⟨c, name, rfl⟩ := List.exists_cons_of_ne_nil hne
  have hname : name.any Char.isDigit = false := hplain
  rw [List.cons_append, extractFromFilename, extractLoop_plain hname]
  cases v with
  | nil => exact List.suffix_rfl
  | cons d v =>
    have hdigit : d.isDigit = true := hv
    rw [extractLoop, if_pos hdigit, if_pos rfl]
    rcases extractLoop_end (d :: v) d v with h | h
    · rw [h]
    · exact h.trans (List.suffix_cons d v)

theorem readVersion_take (hplain : lead.tail.any Char.isDigit = false) (hne : lead ≠ [])
    (hv : v.head?.all Char.isDigit = true) {pos : Nat} {u : Str}
    (h : readVersion ((lead ++ v).take pos) = some u) :
    u <:+ v.take (pos - lead.length) := by
  rw [readVersion] at h
  split at h
  · cases h
  · next hread =>
    obtain rfl := Option.some.inj h
    by_cases hpos : lead.length ≤ pos
    · obtain ⟨k, rfl⟩ := Nat.exists_eq_add_of_le hpos
      have htake : (lead ++ v).take (lead.length + k) = lead ++ v.take k := by
        rw [List.take_append, List.take_of_length_le (by omega)]
        simp
      rw [htake, Nat.add_sub_cancel_left]
      refine extract_behind hplain hne ?_
      cases v with
      | nil => simp
      | cons d v => cases k <;> simp_all
    · -- the text ends within the name
      have htake : (lead ++ v).take pos = lead.take pos := List.take_append_of_le_length (by omega)
      rw [htake] at hread
      exfalso
      refine hread ?_
      by_cases hzero : lead.take pos = []
      · rw [hzero]
        rfl
      · have hshort : (lead.take pos).tail.any Char.isDigit = false := by
          rw [List.any_eq_false] at hplain ⊢
          intro c hc
          exact hplain c ((List.take_sublist pos lead).tail.subset hc)
        have hend := extract_behind hshort hzero (rfl : ([] : Str).head?.all Char.isDigit = true)
        rw [List.append_nil] at hend
        exact List.suffix_nil.mp hend

/-- No more than the version is read of a token, and as much only if the suffix is where it belongs. -/
theorem offered_length (hplain : lead.tail.any Char.isDigit = false) (hne : lead ≠ [])
    (hv : v.head?.any Char.isDigit = true) (hlead : found <+: lead) (hblank : ' ' ∉ lead ++ v ++ suffix)
    {u : Str}
    (h : offered found suffix (lead ++ v ++ suffix) = some u) :
    u.length ≤ v.length ∧ (u.length = v.length → suffix ≠ [] ∧
      find suffix (lead ++ v ++ suffix) 1 = some (lead ++ v).length ∧
      extractFromFilename (lead ++ v) = v) := by
  have hdigit : v.head?.all Char.isDigit = true := by
    cases v with
    | nil => rfl
    | cons d v => exact hv
  have hvne : v ≠ [] := by
    rintro rfl
    cases hv
  have hpos := List.length_pos_iff.mpr hvne
  have hprefix : found <+: lead ++ v ++ suffix := by
    rw [List.append_assoc]
    exact hlead.trans (List.prefix_append lead _)
  by_cases hends : suffix = []
  · subst hends
    rw [List.append_nil] at h hblank hprefix
    rw [offered_open hprefix (by simp [hne]) hblank, List.dropLast_eq_take] at h
    have hlen := (readVersion_take hplain hne hdigit h).length_le
    simp only [List.length_take, List.length_append] at hlen
    omega
  · rw [offered_token hprefix hends] at h
    obtain ⟨pos, hfind, hread⟩ := Option.bind_eq_some_iff.mp h
    have hle : pos ≤ (lead ++ v).length := by
      by_contra hlt
      have hearlier := (find_eq_some.mp hfind).2.2.2 (lead ++ v).length
      refine hearlier ?_ (by omega) (by simp)
      rw [List.length_append]
      omega
    rw [List.take_append_of_le_length hle] at hread
    have hend := readVersion_take hplain hne hdigit hread
    have hlen := hend.length_le
    simp only [List.length_take, List.length_append] at hlen hle
    refine ⟨by omega, fun hsame => ?_⟩
    obtain rfl : pos = lead.length + v.length := by omega
    rw [Nat.add_sub_cancel_left, List.take_length] at hend
    obtain rfl := hend.eq_of_length hsame
    rw [List.take_of_length_le (by simp), readVersion] at hread
    split at hread
    · cases hread
    · exact ⟨hends, by rw [hfind, List.length_append], Option.some.inj hread⟩

end Token

section Sums

variable {α : Type} {xs : List α} {f : α → Option α} {size : α → Nat}

theorem sum_filterMap (f : α → Option α) (size : α → Nat) (xs : List α) :
    ((xs.filterMap f).map size).sum = (xs.map fun x => (f x).elim 0 size).sum := by
  induction xs with
  | nil => rfl
  | cons x xs ih =>
    cases h : f x with
    | none => simp [h, ih]
    | some y => simp [h, ih]

theorem eq_of_sum_eq {g h : α → Nat} (hle : ∀ x ∈ xs, g x ≤ h x) (hsum : (xs.map g).sum = (xs.map h).sum) :
    ∀ x ∈ xs, g x = h x := by
  have htotal : ∀ ys : List α, (∀ y ∈ ys, g y ≤ h y) → (ys.map g).sum ≤ (ys.map h).sum := by
    intro ys hys
    induction ys with
    | nil => exact Nat.le_refl 0
    | cons y ys ih =>
      have hrest := ih fun z hz => hys z (List.mem_cons_of_mem y hz)
      have hy := hys y List.mem_cons_self
      simp only [List.map_cons, List.sum_cons]
      omega
  induction xs with
  | nil => simp
  | cons x xs ih =>
    have hrest := htotal xs fun z hz => hle z (List.mem_cons_of_mem x hz)
    have hx := hle x List.mem_cons_self
    simp only [List.map_cons, List.sum_cons] at hsum
    intro z hz
    rcases List.mem_cons.mp hz with rfl | hz
    · omega
    · exact ih (fun v hv => hle v (List.mem_cons_of_mem x hv)) (by omega) z hz

/-- A partial map that makes nothing larger and reaches all of the elements keeps their sizes. -/
theorem size_eq_of_onto (hnodup : xs.Nodup) (honto : ∀ x ∈ xs, ∃ y ∈ xs, f y = some x)
    (hle : ∀ x ∈ xs, ∀ y, f x = some y → size y ≤ size x) (hpos : ∀ x ∈ xs, 0 < size x) :
    ∀ x ∈ xs, ∃ y, f x = some y ∧ size y = size x := by
  have hsub : xs.Subperm (xs.filterMap f) := by
    refine List.subperm_of_subset hnodup fun x hx => ?_
    obtain ⟨y, hy, hfy⟩ := honto x hx
    exact List.mem_filterMap.mpr ⟨y, hy, hfy⟩
  have hperm : xs.Perm (xs.filterMap f) := hsub.perm_of_length_le (List.length_filterMap_le f xs)
  have hsum : (xs.map fun x => (f x).elim 0 size).sum = (xs.map size).sum := by
    rw [← sum_filterMap]
    exact (hperm.map size).sum_nat.symm
  have heach := eq_of_sum_eq (fun x hx => ?_) hsum
  · intro x hx
    have hx' := heach x hx
    have hpos' := hpos x hx
    cases h : f x with
    | none =>
      rw [h] at hx'
      exact absurd hx' (by simp; omega)
    | some y =>
      rw [h] at hx'
      exact ⟨y, rfl, hx'⟩
  · cases h : f x with
    | none => exact Nat.zero_le _
    | some y => exact hle x hx y h

end Sums

section Page

variable {suffixes : List Str} {opts : ParseOptions} {lead own suffix page : Str} {vs : List Str} {v : Str}

theorem mem_pageOffers (file : Str) : v ∈ pageOffers suffixes opts file page ↔ ∃ token ∈ tokens isspace page,
    offered (leading opts (splitSuffix suffixes file).2) (splitSuffix suffixes file).1 token = some v := by
  rw [pageOffers, List.mem_filterMap]
  constructor
  · rintro ⟨token, htoken, h⟩
    rw [pageTokens, List.mem_append] at htoken
    rcases htoken with htoken | htoken
    · exact ⟨token, htoken, h⟩
    · split at htoken
      · rw [List.mem_singleton.mp htoken, offered_nil] at h
        cases h
      · cases htoken
  · rintro ⟨token, htoken, h⟩
    exact ⟨token, List.mem_append_left _ htoken, h⟩

theorem Readable.offered (h : Readable suffixes opts lead own suffix v) (hv : v ≠ []) :
    offered (leading opts (lead ++ own)) suffix (lead ++ v ++ suffix) = some v := by
  have hprefix : leading opts (lead ++ own) <+: lead ++ v ++ suffix := by
    rcases leading_known h.file with hlead | hlead
    · rw [hlead]
      exact List.nil_prefix
    · rw [hlead, List.append_assoc]
      exact List.prefix_append lead _
  rw [offered_token hprefix h.ends, h.first, Option.bind_some, List.take_left, readVersion, h.version,
    if_neg hv]

/-- The candidates are the versions of the page as long as each is readable. Where the file name is
taken apart as it is meant to be, and the name has no digit behind its first character, this is
exact. -/
theorem candidates_iff (suffixes : List Str) (opts : ParseOptions) (lead own suffix page : Str)
    (vs : List Str)
    (hvs : ∀ v ∈ vs, v.head?.any Char.isDigit = true) (hnodup : vs.Nodup)
    (hkeeps : ∀ v ∈ vs, keeps opts v = true)
    (htokens : tokens isspace page = vs.map fun v => lead ++ v ++ suffix) :
    ((∀ v ∈ vs, Readable suffixes opts lead own suffix v) →
      ∀ v, v ∈ candidates suffixes opts (lead ++ own ++ suffix) page ↔ v ∈ vs) ∧
    ((firstSuffix suffixes (lead ++ own ++ suffix)).getD [] = suffix →
    extractFromFilename (lead ++ own) = own →
      lead ≠ [] → lead.tail.any Char.isDigit = false →
      ((∀ v, v ∈ candidates suffixes opts (lead ++ own ++ suffix) page ↔ v ∈ vs) ↔
        ∀ v ∈ vs, Readable suffixes opts lead own suffix v)) := by
  have hne : ∀ v ∈ vs, v ≠ [] := by
    rintro v hv rfl
    exact absurd (hvs [] hv) (by decide)
  have henough : (∀ v ∈ vs, Readable suffixes opts lead own suffix v) →
      ∀ v, v ∈ candidates suffixes opts (lead ++ own ++ suffix) page ↔ v ∈ vs := by
    intro h v
    rw [candidates, mem_keptVersions, mem_pageOffers, htokens]
    constructor
    · rintro ⟨⟨token, htoken, hoffered⟩, -⟩
      obtain ⟨w, hw, rfl⟩ := List.mem_map.mp htoken
      rw [splitSuffix_known (h w hw).known, (h w hw).offered (hne w hw)] at hoffered
      exact Option.some.inj hoffered ▸ hw
    · intro hv
      refine ⟨⟨lead ++ v ++ suffix, List.mem_map.mpr ⟨v, hv, rfl⟩, ?_⟩, hkeeps v hv⟩
      rw [splitSuffix_known (h v hv).known]
      exact (h v hv).offered (hne v hv)
  refine ⟨henough, fun hknown hown hlead hplain => ⟨fun h => ?_, henough⟩⟩
  have hprefix : leading opts (lead ++ own) <+: lead := by
    have hcases : leading opts (lead ++ own) = [] ∨ leading opts (lead ++ own) = lead :=
      leading_known (.inr hown)
    rcases hcases with hempty | hsame
    · rw [hempty]
      exact List.nil_prefix
    · rw [hsame]
  have hlength : ∀ v ∈ vs, ∀ u, offered (leading opts (lead ++ own)) suffix (lead ++ v ++ suffix) = some u →
      u.length ≤ v.length ∧ (u.length = v.length → suffix ≠ [] ∧
        find suffix (lead ++ v ++ suffix) 1 = some (lead ++ v).length ∧
        extractFromFilename (lead ++ v) = v) := by
    intro v hv u
    have htoken : lead ++ v ++ suffix ∈ tokens isspace page := by
      rw [htokens]
      exact List.mem_map.mpr ⟨v, hv, rfl⟩
    have hblank : ' ' ∉ lead ++ v ++ suffix := fun hmem => by
      simpa [isspace] using (mem_tokens htoken).2 ' ' hmem
    exact offered_length hplain hlead (hvs v hv) hprefix hblank
  have honto : ∀ v ∈ vs, ∃ w ∈ vs,
      offered (leading opts (lead ++ own)) suffix (lead ++ w ++ suffix) = some v := by
    intro v hv
    have hmem := (h v).mpr hv
    rw [candidates, mem_keptVersions, mem_pageOffers, htokens, splitSuffix_known hknown] at hmem
    obtain ⟨⟨token, htoken, hoffered⟩, -⟩ := hmem
    obtain ⟨w, hw, rfl⟩ := List.mem_map.mp htoken
    exact ⟨w, hw, hoffered⟩
  have hsizes := @size_eq_of_onto Str vs _ List.length hnodup honto (fun v hv u hu => (hlength v hv u hu).1)
    fun v hv => List.length_pos_iff.mpr (hne v hv)
  intro v hv
  obtain ⟨u, hu, hsame⟩ := hsizes v hv
  obtain ⟨hends, hfirst, hversion⟩ := (hlength v hv u hu).2 hsame
  exact ⟨hknown, .inr hown, hends, hfirst, hversion⟩

end Page

def defaultOptions : ParseOptions := { odd := true, noPrefix := false, beta := true, nineties := false }

theorem readable_make {v : Str} (hv : v ∈ ["4.1".toList, "4.4.1".toList]) :
    Readable knownSuffixes defaultOptions "make-".toList "4.0".toList ".tar.gz".toList v := by
  have hknown : (firstSuffix knownSuffixes ("make-".toList ++ "4.0".toList ++ ".tar.gz".toList)).getD [] =
      ".tar.gz".toList := by decide +kernel
  rcases List.mem_cons.mp hv with rfl | hv
  · exact ⟨hknown, .inr (by decide +kernel), by decide, by decide +kernel, by decide +kernel⟩
  · rw [List.mem_singleton.mp hv]
    exact ⟨hknown, .inr (by decide +kernel), by decide, by decide +kernel, by decide +kernel⟩

theorem candidates_make :
    "4.4.1".toList ∈ candidates knownSuffixes defaultOptions ("make-".toList ++ "4.0".toList ++
    ".tar.gz".toList)
        "make-4.1.tar.gz make-4.4.1.tar.gz\n".toList ∧
      "4.0".toList ∉ candidates knownSuffixes defaultOptions ("make-".toList ++ "4.0".toList ++
      ".tar.gz".toList)
        "make-4.1.tar.gz make-4.4.1.tar.gz\n".toList := by
  have hlisted := (candidates_iff knownSuffixes defaultOptions "make-".toList "4.0".toList ".tar.gz".toList
    "make-4.1.tar.gz make-4.4.1.tar.gz\n".toList ["4.1".toList, "4.4.1".toList] (by decide +kernel)
    (by decide +kernel)
    (by decide +kernel) (by decide +kernel)).1 fun _ => readable_make
  exact ⟨(hlisted _).mpr (by decide), fun h => absurd ((hlisted _).mp h) (by decide)⟩

/-- Without a suffix the last character of the version is lost. -/
theorem candidates_directory :
    candidates knownSuffixes defaultOptions "make-4.0".toList "make-4.4.1".toList = ["4.4.".toList] := by
  decide +kernel

end T2SDE.Version
