import T2SDE.FlLog
import T2SDE.Lib.CString
import T2SDE.Lib.FileTree
import T2SDE.Lib.Joined

namespace T2SDE.FlWrparse

open Text PathName FileTree
open FlWrapper (fgets filenameMax)

section Program

/-- `strrchr` for a slash: what is in front of the last one and what is behind it. -/
def lastSlash (s : Str) : Option (Str × Str) :=
  if '/' ∈ s then some ((s.rdropWhile (· != '/')).dropLast, s.rtakeWhile (· != '/')) else none

/-- A name in a buffer, if it does not overrun it. -/
def inBuffer (s : Str) : Option Str := if s.length < filenameMax then some s else none

/-- A directory name as `get_realname` puts it in front of a file. -/
def dirName (dir : Loc) : Str := absolute dir ++ if absolute dir ≠ ['/'] then ['/'] else []

/-- `get_realname` in a working directory: the name, and the working directory behind it. -/
def getRealname (t : Tree) (cwd : Loc) (origname : Str) : Option (Str × Loc) :=
  if origname = ['/'] then some (['/'], cwd)
  else
    let parts := (lastSlash origname).getD (['.'], origname)
    let odir := absolute cwd
    -- a `chdir` that fails is not noticed
    let dir := (chdir t cwd parts.1).getD cwd
    let back := (chdir t dir odir).getD dir
    (inBuffer origname).bind fun _ => (inBuffer odir).bind fun _ =>
      (inBuffer (dirName dir ++ parts.2)).map fun name => (name, back)

/-- A line of the input: what is printed, and the working directory behind it. -/
def wrparseLine (t : Tree) (rootdir : Str) (cwd : Loc) (buf : Str) : Option (List Str × Loc) :=
  let fn := buf.takeWhile (· != '\n')
  if fn = [] then some ([], cwd)
  else
    match locate t cwd fn with
    | none => some ([], cwd)
    | some _ => (getRealname t cwd fn).map fun r =>
        (if rootdir <+: r.1 then [r.1.drop rootdir.length] else [], r.2)

def wrparseLoop (t : Tree) (rootdir : Str) : Nat → Loc → Str → Option (List (List Str × Loc))
  | 0, _, _ => some []
  | fuel + 1, cwd, s =>
    if s = [] then some []
    else
      let r := fgets (filenameMax - 1) s
      (wrparseLine t rootdir cwd r.1).bind fun l => (wrparseLoop t rootdir fuel l.2 r.2).map (l :: ·)

/-- `fl_wrparse -D -r rootarg`, started in a directory. -/
def wrparseMain (t : Tree) (start : Loc) (rootarg input : Str) : Option (List (List Str × Loc)) :=
  (getRealname t start rootarg).bind fun r =>
    wrparseLoop t r.1 input.length ((chdir t r.2 r.1).getD r.2) input

end Program

section Purpose

/-- A file tree with the directory that is passed as root. -/
structure Setting where
  tree : Tree
  start : Loc
  start_dir : tree.entry start = some .dir
  start_short : (absolute start).length < filenameMax
  dir : Str
  dir_short : (dir ++ ['/']).length < filenameMax
  root : Loc
  root_dir : (if dir = [] then some [] else chdir tree start dir) = some root
  root_short : (dirName root).length < filenameMax

/-- A normalised path, absolute or relative to the root. -/
structure Input where
  absolute : Bool
  comps : List Str
  names : ∀ c ∈ comps, IsName c ∧ ∀ d ∈ c, d ∉ ['\n', CString.nul]
  nonempty : absolute = true ∨ comps ≠ []
  short : ((if absolute then ['/'] else []) ++ ['/'].intercalate comps).length < filenameMax

def Input.text (p : Input) : Str := (if p.absolute then ['/'] else []) ++ ['/'].intercalate p.comps

def inputText (inputs : List Input) : Str := inputs.flatMap fun p => p.text ++ ['\n']

/-- What is to be printed for a path: its place relative to the root. -/
def expected (s : Setting) (p : Input) : List Str :=
  match locate s.tree s.root p.text with
  | none => []
  | some loc => if s.root <+: loc ∧ loc ≠ s.root then [['/'].intercalate (loc.drop s.root.length)] else []

/-- The resolved names fit. -/
def Short (s : Setting) (p : Input) : Prop :=
  ∀ loc, locate s.tree s.root p.text = some loc → (PathName.absolute loc).length < filenameMax

/-- The paths are mapped into the root, and the working directory is the root behind every line. -/
def Maps (s : Setting) (inputs : List Input) : Prop :=
  ∃ out, wrparseMain s.tree s.start (s.dir ++ ['/']) (inputText inputs) = some out ∧
    out.flatMap (·.1) = inputs.flatMap (expected s) ∧ ∀ l ∈ out, l.2 = s.root

/-- A path for which the special cases of `get_realname` are harmless: not a file in the top
directory of the system when the root is another one, and not this directory when it is the root. -/
def Harmless (s : Setting) (p : Input) : Prop :=
  (locate s.tree s.root p.text).isSome → p.absolute = true →
    (p.comps.length = 1 → s.root = []) ∧ (p.comps = [] → s.root ≠ [])

end Purpose

section Names

variable {loc root dir : Loc} {c : Str} {cs ds : List Str}

theorem inBuffer_short {s : Str} (h : s.length < filenameMax) : inBuffer s = some s := if_pos h

theorem lastSlash_append (hc : '/' ∉ c) (front : Str) : lastSlash (front ++ '/' :: c) = some (front, c) := by
  have hall : ∀ d ∈ c.reverse, (d != '/') = true := by
    intro d hd
    simpa using fun h : d = '/' => hc (h ▸ List.mem_reverse.mp hd)
  have hrev : (front ++ '/' :: c).reverse = c.reverse ++ '/' :: front.reverse := by simp
  have hmem : '/' ∈ front ++ '/' :: c := by simp
  rw [lastSlash, if_pos hmem, List.rdropWhile, List.rtakeWhile, hrev, List.dropWhile_append_of_pos hall,
    List.takeWhile_append_of_pos hall]
  simp

theorem lastSlash_none (hc : '/' ∉ c) : lastSlash c = none := if_neg hc

/-- The names of a path, each with a slash behind it. -/
theorem intercalate_slash (hcs : cs ≠ []) : ['/'].intercalate cs ++ ['/'] = cs.flatMap (· ++ ['/']) := by
  induction cs with
  | nil => exact absurd rfl hcs
  | cons a cs ih =>
    cases cs with
    | nil => simp [List.intercalate]
    | cons b cs => rw [intercalate_cons, List.append_assoc, List.cons_append, ih (by simp)]; simp

theorem absolute_ne_slash (hloc : ∀ d ∈ loc, IsComponent d) (hne : loc ≠ []) : absolute loc ≠ ['/'] := by
  intro h
  have hnil : ['/'].intercalate loc = [] := (List.cons.inj h).2
  exact intercalate_ne_nil (fun hmem => (hloc [] hmem).1 rfl) hne hnil

theorem dirName_eq (hdir : ∀ d ∈ dir, IsComponent d) : dirName dir = '/' :: dir.flatMap (· ++ ['/']) := by
  by_cases hne : dir = []
  · subst hne
    rfl
  · rw [dirName, if_pos (absolute_ne_slash hdir hne), absolute, List.cons_append, intercalate_slash hne]

theorem intercalate_append (ds : List Str) (hcs : cs ≠ []) :
    ['/'].intercalate (ds ++ cs) = ds.flatMap (· ++ ['/']) ++ ['/'].intercalate cs := by
  induction ds with
  | nil => rfl
  | cons d ds ih =>
    cases hds : ds ++ cs with
    | nil => exact absurd (List.append_eq_nil_iff.mp hds).2 hcs
    | cons e es =>
      rw [List.cons_append, hds, intercalate_cons, ← hds, ih]
      simp

theorem absolute_append (hdir : ∀ d ∈ dir, IsComponent d) (hcs : cs ≠ []) :
    absolute (dir ++ cs) = dirName dir ++ ['/'].intercalate cs := by
  rw [dirName_eq hdir, absolute, intercalate_append dir hcs, List.cons_append]

/-- The prefix test of the program: a place is strictly below the root. -/
theorem dirName_prefix (hroot : ∀ d ∈ root, IsComponent d) (hloc : ∀ d ∈ loc, IsComponent d)
    (hne : loc ≠ []) :
    dirName root <+: absolute loc ↔ root <+: loc ∧ loc ≠ root := by
  constructor
  · rw [dirName_eq hroot, absolute, List.cons_prefix_cons]
    rintro ⟨-, h⟩
    induction root generalizing loc with
    | nil => exact ⟨List.nil_prefix, hne⟩
    | cons a root ih =>
      have ha := (hroot a List.mem_cons_self).2
      rw [List.flatMap_cons, List.append_assoc, List.singleton_append] at h
      cases loc with
      | nil => exact absurd rfl hne
      | cons d loc =>
        have hd := (hloc d List.mem_cons_self).2
        cases loc with
        | nil =>
          have hslash : '/' ∈ d := by
            have hsub := h.subset (show '/' ∈ a ++ '/' :: root.flatMap (· ++ ['/']) by simp)
            simpa [List.intercalate] using hsub
          exact absurd hslash hd
        | cons e loc =>
          rw [intercalate_cons] at h
          obtain rfl := eq_of_prefix_sep ha hd h
          have hrest : root.flatMap (· ++ ['/']) <+: ['/'].intercalate (e :: loc) := by
            rw [List.prefix_append_right_inj, List.cons_prefix_cons] at h
            exact h.2
          obtain ⟨hpre, hneq⟩ := ih (fun x hx => hroot x (List.mem_cons_of_mem a hx))
            (fun x hx => hloc x (List.mem_cons_of_mem a hx)) (by simp) hrest
          exact ⟨List.cons_prefix_cons.mpr ⟨rfl, hpre⟩, fun heq => hneq (List.cons.inj heq).2⟩
  · rintro ⟨⟨rest, rfl⟩, hneq⟩
    have hrest : rest ≠ [] := by
      rintro rfl
      exact hneq (List.append_nil root)
    rw [absolute_append hroot hrest]
    exact List.prefix_append _ _

end Names

section Lines

variable {t : Tree} {cwd dir root loc : Loc} {s : Setting} {p : Input} {c d buf front file name : Str}
  {ds : List Str}

/-- The name is split, and the change of directory and the way back are taken. -/
theorem getRealname_eq (hslash : name ≠ ['/']) (hparts : (lastSlash name).getD (['.'], name) = (front, file))
    (hdir : (chdir t cwd front).getD cwd = dir) (hcwd : t.entry cwd = some .dir)
    (hname : name.length < filenameMax)
    (hshort : (absolute cwd).length < filenameMax) :
    getRealname t cwd name = (inBuffer (dirName dir ++ file)).map fun name => (name, cwd) := by
  have hback : chdir t dir (absolute cwd) = some cwd := chdir_absolute hcwd dir
  rw [getRealname, if_neg hslash, hparts]
  simp only [hdir, hback, inBuffer_short hname, inBuffer_short hshort, Option.getD_some, Option.bind_some]

theorem length_absolute_le (dir : Loc) : (absolute dir).length ≤ (dirName dir).length := by
  rw [dirName, List.length_append]
  exact Nat.le_add_right _ _

theorem root_is_dir (s : Setting) : s.tree.entry s.root = some .dir := by
  have hroot := s.root_dir
  split_ifs at hroot
  · rw [← Option.some.inj hroot]
    exact s.tree.root
  · exact chdir_dir s.start_dir hroot

theorem root_names (s : Setting) : ∀ d ∈ s.root, IsComponent d :=
  fun d hd => (s.tree.names (by rw [root_is_dir s]; rfl) d hd).1

theorem cwd_short (s : Setting) : (absolute s.root).length < filenameMax :=
  Nat.lt_of_le_of_lt (length_absolute_le s.root) s.root_short

theorem realroot (s : Setting) :
    getRealname s.tree s.start (s.dir ++ ['/']) = some (dirName s.root, s.start) := by
  have hroot := s.root_dir
  by_cases hdir : s.dir = []
  · rw [if_pos hdir] at hroot
    obtain hroot := Option.some.inj hroot
    rw [hdir, ← hroot, getRealname, List.nil_append, if_pos rfl]
    rfl
  · rw [if_neg hdir] at hroot
    have hslash : s.dir ++ ['/'] ≠ ['/'] := fun h => hdir (List.append_left_eq_self.mp h)
    have hparts : (lastSlash (s.dir ++ ['/'])).getD (['.'], s.dir ++ ['/']) = (s.dir, []) := by
      rw [lastSlash_append (by simp) s.dir, Option.getD_some]
    have hgo : (chdir s.tree s.start s.dir).getD s.start = s.root := by rw [hroot, Option.getD_some]
    rw [getRealname_eq hslash hparts hgo s.start_dir s.dir_short s.start_short, List.append_nil,
      inBuffer_short s.root_short, Option.map_some]

theorem chdir_dirName (h : t.entry loc = some .dir) (cwd : Loc) : chdir t cwd (dirName loc) = some loc := by
  have hnames : ∀ d ∈ loc, IsComponent d := fun d hd => (t.names (by rw [h]; rfl) d hd).1
  have hcomps : components (dirName loc) = loc := by
    refine Eq.trans ?_ (components_absolute hnames)
    rw [dirName]
    split_ifs
    · rw [components, tokens_append_sep rfl]
      simp [components]
    · rw [List.append_nil]
  have hstart : start (dirName loc) cwd = [] := rfl
  have hne : dirName loc ≠ [] := List.cons_ne_nil _ _
  rw [chdir, if_neg hne, hstart, hcomps]
  exact walk_down h maxLinks

theorem Input.component (h : d ∈ p.comps) : IsComponent d := (p.names d h).1.1

theorem Input.components_text (p : Input) : components p.text = p.comps := by
  rw [Input.text]
  split_ifs
  · exact components_absolute fun c hc => p.component hc
  · refine tokens_intercalate rfl fun c hc => ⟨(p.component hc).1, fun d hd => ?_⟩
    simpa using fun h : d = '/' => (p.component hc).2 (h ▸ hd)

theorem Input.text_ne_nil (p : Input) : p.text ≠ [] := by
  rcases p.nonempty with habs | hne
  · simp [Input.text, habs]
  · have hjoin := intercalate_ne_nil (d := '/') (fun hmem => (p.component hmem).1 rfl) hne
    simp [Input.text, hjoin]

theorem Input.text_line (p : Input) : '\n' ∉ p.text := by
  intro h
  rcases List.mem_append.mp h with h | h
  · split_ifs at h
    · exact absurd h (by decide)
    · exact absurd h List.not_mem_nil
  · rcases mem_intercalate h with h | ⟨c, hc, h⟩
    · exact absurd h (by decide)
    · exact (p.names c hc).2 _ h (by simp)

theorem Input.start_text (p : Input) (cwd : Loc) : start p.text cwd = if p.absolute then [] else cwd := by
  by_cases habs : p.absolute = true
  · simp [start, Input.text, habs]
  · obtain ⟨c, cs, hcs⟩ := List.exists_cons_of_ne_nil (p.nonempty.resolve_left habs)
    have hc : IsComponent c := p.component (by simp [hcs])
    obtain ⟨d, w, rfl⟩ := List.exists_cons_of_ne_nil hc.1
    have hd : d ≠ '/' := fun h => hc.2 (by simp [h])
    have hhead : p.text.head? = some d := by
      rw [Input.text, if_neg habs, hcs]
      cases cs with
      | nil => simp [List.intercalate]
      | cons e es => rw [intercalate_cons]; rfl
    rw [start, hhead, if_neg (by simpa using hd), if_neg habs]

/-- Where an existing path with a last component lies. -/
theorem locate_eq (hcomps : p.comps = ds ++ [c]) (h : locate t cwd p.text = some loc) :
    ∃ dir, walk t maxLinks (if p.absolute then [] else cwd) ds = some dir ∧ loc = dir ++ [c] ∧
      (t.entry loc).isSome := by
  have hc : IsName c := (p.names c (by simp [hcomps])).1
  rw [locate, if_neg p.text_ne_nil, p.components_text, p.start_text, hcomps, List.getLast?_concat] at h
  obtain ⟨dir, hwalk, h⟩ := Option.bind_eq_some_iff.mp h
  rw [List.dropLast_concat] at hwalk
  rw [enter, if_neg hc.2.1, if_neg hc.2.2] at h
  split_ifs at h with hentry
  obtain rfl := Option.some.inj h
  exact ⟨dir, hwalk, rfl, hentry⟩

theorem locate_slash (hcomps : p.comps = []) (t : Tree) (cwd : Loc) :
    p.text = ['/'] ∧ locate t cwd p.text = some [] := by
  have habs : p.absolute = true := p.nonempty.resolve_right fun h => h hcomps
  have htext : p.text = ['/'] := by simp [Input.text, habs, hcomps, List.intercalate]
  refine ⟨htext, ?_⟩
  rw [locate, if_neg p.text_ne_nil, p.components_text, hcomps]
  rfl

/-- The directory part that `get_realname` takes from a path, and where it leads. -/
theorem directory_part (hcomps : p.comps = ds ++ [c]) (t : Tree) (cwd : Loc) :
    ∃ front, (lastSlash p.text).getD (['.'], p.text) = (front, c) ∧
      chdir t cwd front = if p.absolute = true ∧ ds = [] then none
        else walk t maxLinks (if p.absolute then [] else cwd) ds := by
  have hc : '/' ∉ c := (p.component (by simp [hcomps])).2
  have hds : ∀ d ∈ ds, IsComponent d := fun d hd => p.component (by simp [hcomps, hd])
  by_cases hnil : ds = []
  · subst hnil
    by_cases habs : p.absolute = true
    · have htext : p.text = [] ++ '/' :: c := by simp [Input.text, habs, hcomps, List.intercalate]
      refine ⟨[], by rw [htext, lastSlash_append hc, Option.getD_some], ?_⟩
      rw [if_pos ⟨habs, rfl⟩]
      rfl
    · have htext : p.text = c := by simp [Input.text, habs, hcomps, List.intercalate]
      refine ⟨['.'], by rw [htext, lastSlash_none hc, Option.getD_none], ?_⟩
      rw [if_neg fun h => habs h.1, if_neg habs]
      rfl
  · -- the directory part is a path of its own
    have hq : ∃ q : Input, q.absolute = p.absolute ∧ q.comps = ds := by
      refine ⟨⟨p.absolute, ds, fun d hd => p.names d (by simp [hcomps, hd]), .inr hnil, ?_⟩, rfl, rfl⟩
      have hshort := p.short
      rw [hcomps, intercalate_concat '/' hnil] at hshort
      simp only [List.length_append] at hshort ⊢
      omega
    obtain ⟨q, habs, rfl⟩ := hq
    have htext : p.text = q.text ++ '/' :: c := by
      rw [Input.text, hcomps, intercalate_concat '/' hnil, ← List.append_assoc, ← habs]
      rfl
    refine ⟨q.text, by rw [htext, lastSlash_append hc, Option.getD_some], ?_⟩
    rw [if_neg fun h => hnil h.2, chdir, if_neg q.text_ne_nil, q.components_text, q.start_text, habs]

end Lines

section Runs

variable {t : Tree} {cwd : Loc} {s : Setting} {p : Input} {ps : List Input} {buf rootdir : Str} {fuel : Nat}
  {lines : List Str} {out : List (List Str × Loc)}

/-- A harmless path is printed as its place below the root. -/
theorem line_harmless (hbuf : buf.takeWhile (· != '\n') = p.text) (hshort : Short s p) (h : Harmless s p) :
    wrparseLine s.tree (dirName s.root) s.root buf = some (expected s p, s.root) := by
  rw [wrparseLine, hbuf, if_neg p.text_ne_nil, expected]
  cases hloc : locate s.tree s.root p.text with
  | none => rfl
  | some loc =>
    rcases List.eq_nil_or_concat p.comps with hcomps | ⟨ds, c, hcomps⟩
    · obtain ⟨htext, hplace⟩ := locate_slash hcomps s.tree s.root
      obtain rfl : [] = loc := Option.some.inj (hplace.symm.trans hloc)
      have habs : p.absolute = true := p.nonempty.resolve_right fun h => h hcomps
      have hroot : s.root ≠ [] := (h (by rw [hloc]; rfl) habs).2 hcomps
      have hout : ¬dirName s.root <+: ['/'] := by
        rw [dirName_eq (root_names s), List.cons_prefix_cons, List.prefix_nil, List.flatMap_eq_nil_iff]
        rintro ⟨-, hall⟩
        obtain ⟨d, ds, hds⟩ := List.exists_cons_of_ne_nil hroot
        simpa using hall d (by simp [hds])
      have hbelow : ¬(s.root <+: [] ∧ [] ≠ s.root) := fun h => hroot (List.prefix_nil.mp h.1)
      simp only [htext, getRealname, if_true, Option.map_some, if_neg hout, if_neg hbelow]
    · rw [List.concat_eq_append] at hcomps
      obtain ⟨dir, hwalk, rfl, hentry⟩ := locate_eq hcomps hloc
      obtain ⟨front, hparts, hgo⟩ := directory_part hcomps s.tree s.root
      have hnames : ∀ d ∈ dir ++ [c], IsComponent d := fun d hd => (s.tree.names hentry d hd).1
      have hdir : (chdir s.tree s.root front).getD s.root = dir := by
        rw [hgo]
        by_cases htop : p.absolute = true ∧ ds = []
        · -- a file in the top directory: the change of directory fails
          have hroot : s.root = [] := (h (by rw [hloc]; rfl) htop.1).1 (by simp [hcomps, htop.2])
          rw [htop.2, if_pos htop.1] at hwalk
          rw [if_pos htop, hroot]
          exact Option.some.inj hwalk
        · rw [if_neg htop, hwalk, Option.getD_some]
      have hslash : p.text ≠ ['/'] := by
        intro htext
        have hnil := p.components_text
        rw [htext, hcomps] at hnil
        exact List.append_ne_nil_of_right_ne_nil ds (List.cons_ne_nil c []) hnil.symm
      have hname : dirName dir ++ c = absolute (dir ++ [c]) := by
        rw [absolute_append (fun d hd => hnames d (List.mem_append_left _ hd)) (List.cons_ne_nil c [])]
        simp [List.intercalate]
      have hfits := hshort _ hloc
      have hprefix := dirName_prefix (root_names s) hnames (by simp)
      simp only [getRealname_eq hslash hparts hdir (root_is_dir s) p.short (cwd_short s), hname,
        inBuffer_short hfits, Option.map_some, hprefix]
      split_ifs with hbelow
      · obtain ⟨⟨rest, hrest⟩, hne⟩ := hbelow
        have hsome : rest ≠ [] := by
          rintro rfl
          exact hne (hrest ▸ List.append_nil s.root)
        have happend : absolute (dir ++ [c]) = dirName s.root ++ ['/'].intercalate rest := by
          rw [← hrest, absolute_append (root_names s) hsome]
        rw [happend, List.drop_left, ← hrest, List.drop_left]
      · rfl

/-- A path that is not harmless is printed although it is not below the root. -/
theorem line_harmful (hbuf : buf.takeWhile (· != '\n') = p.text) (h : ¬Harmless s p) : expected s p = [] ∧
    ∀ l, wrparseLine s.tree (dirName s.root) s.root buf = some l → l.1 ≠ [] ∧ l.2 = s.root := by
  rw [Harmless, Classical.not_imp, Classical.not_imp] at h
  obtain ⟨hsome, habs, h⟩ := h
  obtain ⟨loc, hloc⟩ := Option.isSome_iff_exists.mp hsome
  rw [wrparseLine, hbuf, if_neg p.text_ne_nil, expected, hloc]
  rcases List.eq_nil_or_concat p.comps with hcomps | ⟨ds, c, hcomps⟩
  · have hroot : s.root = [] := by
      by_contra hne
      exact h ⟨fun hlen => by simp [hcomps] at hlen, fun _ => hne⟩
    obtain ⟨htext, hplace⟩ := locate_slash hcomps s.tree s.root
    obtain rfl : [] = loc := Option.some.inj (hplace.symm.trans hloc)
    refine ⟨by simp [hroot], fun l hl => ?_⟩
    rw [htext, getRealname, if_pos rfl, Option.map_some, hroot] at hl
    obtain rfl := Option.some.inj hl
    exact ⟨by simp [dirName, absolute, List.intercalate], hroot.symm⟩
  · rw [List.concat_eq_append] at hcomps
    have hsome : p.comps ≠ [] := by simp [hcomps]
    have hroot : s.root ≠ [] := fun hroot => h ⟨fun _ => hroot, fun hnil => absurd hnil hsome⟩
    obtain rfl : ds = [] := by
      by_contra hne
      exact h ⟨fun hlen => absurd (by simpa [hcomps] using hlen) hne, fun hnil => absurd hnil hsome⟩
    obtain ⟨dir, hwalk, rfl, hentry⟩ := locate_eq hcomps hloc
    rw [if_pos habs] at hwalk
    obtain rfl : [] = dir := Option.some.inj hwalk
    obtain ⟨front, hparts, hgo⟩ := directory_part hcomps s.tree s.root
    have hdir : (chdir s.tree s.root front).getD s.root = s.root := by
      rw [hgo, if_pos ⟨habs, rfl⟩, Option.getD_none]
    have hslash : p.text ≠ ['/'] := by
      intro htext
      have hnil := p.components_text
      rw [htext, hcomps] at hnil
      exact absurd hnil.symm (List.cons_ne_nil c [])
    refine ⟨if_neg ?_, fun l hl => ?_⟩
    · rintro ⟨⟨rest, hrest⟩, hne⟩
      cases hr : s.root with
      | nil => exact hroot hr
      | cons d ds =>
        rw [hr] at hrest hne
        simp only [List.nil_append, List.cons_append, List.cons.injEq, List.append_eq_nil_iff] at hrest
        exact hne (by simp [hrest])
    · simp only [getRealname_eq hslash hparts hdir (root_is_dir s) p.short (cwd_short s), inBuffer,
        Option.map_eq_some_iff] at hl
      obtain ⟨_, ⟨name, hname, rfl⟩, rfl⟩ := hl
      split_ifs at hname
      obtain rfl := Option.some.inj hname
      exact ⟨by simp, rfl⟩

theorem loop_fuel {m : Nat} {input : Str} (hn : input.length ≤ fuel) (hm : input.length ≤ m) (cwd : Loc) :
    wrparseLoop t rootdir fuel cwd input = wrparseLoop t rootdir m cwd input := by
  induction fuel generalizing input m cwd with
  | zero =>
    obtain rfl := List.length_eq_zero_iff.mp (Nat.le_zero.mp hn)
    cases m <;> rfl
  | succ n ih =>
    by_cases hs : input = []
    · subst hs
      cases m <;> rfl
    · obtain ⟨m, rfl⟩ : ∃ k, m = k + 1 :=
        Nat.exists_eq_add_of_le' (Nat.one_le_of_lt (Nat.lt_of_lt_of_le (List.length_pos_of_ne_nil hs) hm))
      have hlt := FlWrapper.fgets_rest_length (n := filenameMax - 1) (by decide) hs
      have hrest : ∀ dir, wrparseLoop t rootdir n dir (fgets (filenameMax - 1) input).2 =
          wrparseLoop t rootdir m dir (fgets (filenameMax - 1) input).2 := ih (by omega) (by omega)
      simp only [wrparseLoop, if_neg hs, hrest]

/-- One path of the input; one that fills the buffer takes two rounds of the loop. -/
theorem loop_input (hfuel : (inputText (p :: ps)).length ≤ fuel) (t : Tree) (rootdir : Str) (cwd : Loc) :
    ∃ buf rounds, buf.takeWhile (· != '\n') = p.text ∧
      wrparseLoop t rootdir fuel cwd (inputText (p :: ps)) =
        (wrparseLine t rootdir cwd buf).bind fun l =>
          (wrparseLoop t rootdir (inputText ps).length l.2 (inputText ps)).map fun out =>
            l :: (List.replicate rounds ([], l.2) ++ out) := by
  have hinput : inputText (p :: ps) = p.text ++ '\n' :: inputText ps := by simp [inputText]
  have htake : p.text.takeWhile (· != '\n') = p.text := by
    rw [List.takeWhile_eq_self_iff]
    intro c hc
    simpa using fun h : c = '\n' => p.text_line (h ▸ hc)
  rw [hinput] at hfuel ⊢
  rw [List.length_append, List.length_cons] at hfuel
  obtain ⟨fuel, rfl⟩ := Nat.exists_eq_add_of_le' (Nat.le_trans (by omega) hfuel : 1 ≤ fuel)
  have hne : p.text ++ '\n' :: inputText ps ≠ [] := by simp
  rw [wrparseLoop, if_neg hne]
  by_cases hroom : p.text.length < filenameMax - 1
  · refine ⟨p.text ++ ['\n'], 0,
      by rw [List.takeWhile_append_of_pos (List.takeWhile_eq_self_iff.mp htake)]; simp, ?_⟩
    simp only [FlWrapper.fgets_line p.text_line hroom, List.replicate_zero, List.nil_append]
    have hrest : ∀ dir, wrparseLoop t rootdir fuel dir (inputText ps) =
        wrparseLoop t rootdir (inputText ps).length dir (inputText ps) := loop_fuel (by omega) (Nat.le_refl _)
    simp only [hrest]
  · have hfull : p.text.length = filenameMax - 1 := by
      have hshort : p.text.length < filenameMax := p.short
      omega
    have hmax : filenameMax = 4096 := rfl
    obtain ⟨fuel, rfl⟩ := Nat.exists_eq_add_of_le' (by omega : 1 ≤ fuel)
    refine ⟨p.text, 1, htake, ?_⟩
    have hend : ∀ dir, wrparseLoop t rootdir (fuel + 1) dir ('\n' :: inputText ps) =
        (wrparseLoop t rootdir (inputText ps).length dir (inputText ps)).map (([], dir) :: ·) := by
      intro dir
      have hline : fgets (filenameMax - 1) ([] ++ '\n' :: inputText ps) = ([] ++ ['\n'], inputText ps) :=
        FlWrapper.fgets_line List.not_mem_nil (by decide)
      have hfn : wrparseLine t rootdir dir ['\n'] = some ([], dir) := rfl
      rw [List.nil_append, List.nil_append] at hline
      rw [wrparseLoop, if_neg (List.cons_ne_nil _ _), hline]
      simp only [hfn, Option.bind_some]
      rw [loop_fuel (by omega) (Nat.le_refl _)]
    simp only [FlWrapper.fgets_full p.text_line hfull, hend, Option.map_map]
    rfl

/-- Harmless paths are printed as their places below the root, from the root and back to it. -/
theorem loop_harmless (h : ∀ p ∈ ps, Short s p ∧ Harmless s p) (hfuel : (inputText ps).length ≤ fuel) :
    ∃ out, wrparseLoop s.tree (dirName s.root) fuel s.root (inputText ps) = some out ∧
      out.flatMap (·.1) = ps.flatMap (expected s) ∧ ∀ l ∈ out, l.2 = s.root := by
  induction ps generalizing fuel with
  | nil => exact ⟨[], by cases fuel <;> rfl, rfl, fun l hl => absurd hl List.not_mem_nil⟩
  | cons p ps ih =>
    obtain ⟨hshort, hharmless⟩ := h p List.mem_cons_self
    obtain ⟨out, hout, hlines, hback⟩ := ih (fun q hq => h q (List.mem_cons_of_mem p hq)) (Nat.le_refl _)
    obtain ⟨buf, rounds, hbuf, hloop⟩ := loop_input hfuel s.tree (dirName s.root) s.root
    rw [line_harmless hbuf hshort hharmless, Option.bind_some, hout, Option.map_some] at hloop
    refine ⟨_, hloop, ?_, ?_⟩
    · rw [List.flatMap_cons, List.flatMap_append, List.flatMap_replicate, hlines, List.flatMap_cons]
      simp
    · intro l hl
      rcases List.mem_cons.mp hl with rfl | hl
      · rfl
      · rcases List.mem_append.mp hl with hl | hl
        · rw [List.eq_of_mem_replicate hl]
        · exact hback l hl

/-- So many lines are printed at least, one more for a path that is not harmless. -/
theorem loop_lines (h : ∀ p ∈ ps, Short s p)
    (hloop : wrparseLoop s.tree (dirName s.root) fuel s.root (inputText ps) = some out)
    (hfuel : (inputText ps).length ≤ fuel) :
    (ps.flatMap (expected s)).length ≤ (out.flatMap (·.1)).length ∧
      ((∃ p ∈ ps, ¬Harmless s p) → (ps.flatMap (expected s)).length < (out.flatMap (·.1)).length) := by
  induction ps generalizing fuel out with
  | nil => simp
  | cons p ps ih =>
    obtain ⟨buf, rounds, hbuf, hinput⟩ := loop_input hfuel s.tree (dirName s.root) s.root
    rw [hloop] at hinput
    obtain ⟨l, hline, hrest⟩ := Option.bind_eq_some_iff.mp hinput.symm
    obtain ⟨more, hmore, rfl⟩ := Option.map_eq_some_iff.mp hrest
    have hp : l.2 = s.root ∧ (expected s p).length ≤ l.1.length ∧
        (¬Harmless s p → (expected s p).length < l.1.length) := by
      by_cases hharmless : Harmless s p
      · obtain rfl :=
          Option.some.inj ((line_harmless hbuf (h p List.mem_cons_self) hharmless).symm.trans hline)
        exact ⟨rfl, Nat.le_refl _, fun hnot => absurd hharmless hnot⟩
      · obtain ⟨hnone, hsome⟩ := line_harmful hbuf hharmless
        have hpos := List.length_pos_of_ne_nil (hsome l hline).1
        rw [hnone, List.length_nil]
        exact ⟨(hsome l hline).2, by omega, fun _ => hpos⟩
    obtain ⟨hback, hle, hlt⟩ := hp
    rw [hback] at hmore
    obtain ⟨hles, hlts⟩ := ih (fun q hq => h q (List.mem_cons_of_mem p hq)) hmore (Nat.le_refl _)
    simp only [List.flatMap_cons, List.flatMap_append, List.length_append]
    refine ⟨by omega, ?_⟩
    rintro ⟨q, hq, hnot⟩
    rcases List.mem_cons.mp hq with rfl | hq
    · have := hlt hnot
      omega
    · have := hlts ⟨q, hq, hnot⟩
      omega

end Runs

/-- `fl_wrparse` maps its input into the root unless `get_realname` takes a special case wrongly. -/
theorem maps_iff (s : Setting) (inputs : List Input) (hshort : ∀ p ∈ inputs, Short s p) :
    Maps s inputs ↔ ∀ p ∈ inputs, Harmless s p := by
  have hmain : wrparseMain s.tree s.start (s.dir ++ ['/']) (inputText inputs) =
      wrparseLoop s.tree (dirName s.root) (inputText inputs).length s.root (inputText inputs) := by
    rw [wrparseMain, realroot, Option.bind_some, chdir_dirName (root_is_dir s), Option.getD_some]
  constructor
  · rintro ⟨out, hout, hlines, -⟩
    rw [hmain] at hout
    obtain ⟨-, hlt⟩ := loop_lines hshort hout (Nat.le_refl _)
    by_contra hnot
    simp only [not_forall] at hnot
    obtain ⟨p, hp, hharmful⟩ := hnot
    have hlong := hlt ⟨p, hp, hharmful⟩
    rw [hlines] at hlong
    exact Nat.lt_irrefl _ hlong
  · intro h
    rw [Maps, hmain]
    exact loop_harmless (fun p hp => ⟨hshort p hp, h p hp⟩) (Nat.le_refl _)

section Sample

def sampleEntry : Loc → Option Entry
  | [] => some .dir
  | [['r']] => some .dir
  | [['r'], ['a']] => some .file
  | [['f']] => some .file
  | _ => none

theorem sampleEntry_cases {loc : Loc} (h : (sampleEntry loc).isSome) :
    loc = [] ∨ loc = [['r']] ∨ loc = [['r'], ['a']] ∨ loc = [['f']] := by
  unfold sampleEntry at h
  split at h
  · exact .inl rfl
  · exact .inr (.inl rfl)
  · exact .inr (.inr (.inl rfl))
  · exact .inr (.inr (.inr rfl))
  · cases h

theorem sampleEntry_concat {loc : Loc} {c : Str} (h : (sampleEntry (loc ++ [c])).isSome) :
    (loc = [] ∧ c = ['r']) ∨ (loc = [['r']] ∧ c = ['a']) ∨ (loc = [] ∧ c = ['f']) := by
  have hpair : [['r'], ['a']] = [['r']] ++ [['a']] := rfl
  have hone : ∀ d : Str, [d] = [] ++ [d] := fun _ => rfl
  rcases sampleEntry_cases h with h | h | h | h
  · exact absurd h (List.append_ne_nil_of_right_ne_nil loc (List.cons_ne_nil c []))
  · exact .inl (List.append_inj' (h.trans (hone _)) rfl |>.imp_right fun h => (List.cons.inj h).1)
  · exact .inr (.inl (List.append_inj' (h.trans hpair) rfl |>.imp_right fun h => (List.cons.inj h).1))
  · exact .inr (.inr (List.append_inj' (h.trans (hone _)) rfl |>.imp_right fun h => (List.cons.inj h).1))

def letter (d : Char) : Bool := d != '/' && d != '.' && d != '\n' && d != CString.nul

theorem letter_name {d : Char} (h : letter d = true) : IsName [d] ∧ ∀ e ∈ [d], e ∉ ['\n', CString.nul] := by
  simp only [letter, Bool.and_eq_true, bne_iff_ne] at h
  obtain ⟨⟨⟨hslash, hdot⟩, hline⟩, hnul⟩ := h
  refine ⟨⟨⟨List.cons_ne_nil d [], ?_⟩, ?_, ?_⟩, ?_⟩
  · simpa using hslash.symm
  · simpa using hdot
  · simp
  · simp [hline, hnul]

theorem letters_line {ds : Str} (h : ds.all letter = true) :
    ∀ c ∈ ds.map ([·]), IsName c ∧ ∀ d ∈ c, d ∉ ['\n', CString.nul] := by
  intro c hc
  obtain ⟨d, hd, rfl⟩ := List.mem_map.mp hc
  exact letter_name (List.all_eq_true.mp h d hd)

/-- A root directory /r with a file in it, and a file beside it. -/
def sampleTree : Tree where
  entry := sampleEntry
  root := rfl
  parent loc c h := by
    rcases sampleEntry_concat h with ⟨rfl, -⟩ | ⟨rfl, -⟩ | ⟨rfl, -⟩ <;> rfl
  name loc c h := by
    rcases sampleEntry_concat h with ⟨-, rfl⟩ | ⟨-, rfl⟩ | ⟨-, rfl⟩
    · exact (letter_name rfl).1
    · exact (letter_name rfl).1
    · exact (letter_name rfl).1

def sampleSetting : Setting where
  tree := sampleTree
  start := []
  start_dir := rfl
  start_short := by decide
  dir := ['/', 'r']
  dir_short := by decide
  root := [['r']]
  root_dir := rfl
  root_short := by decide

/-- The absolute path of a file by names of one letter. -/
def letters (ds : Str) (h : ds.all letter = true)
    (hshort : (['/'] ++ ['/'].intercalate (ds.map ([·]))).length < filenameMax) : Input where
  absolute := true
  comps := ds.map ([·])
  names := letters_line h
  nonempty := .inl rfl
  short := hshort

def rootFile : Input := letters ['r', 'a'] rfl (by decide)

def topFile : Input := letters ['f'] rfl (by decide)

end Sample

theorem maps_sample : Maps sampleSetting [rootFile] := by
  refine (maps_iff sampleSetting [rootFile] fun p hp loc hloc => ?_).mpr fun p hp _ _ => ?_
  · rw [List.mem_singleton.mp hp] at hloc
    obtain rfl : [['r'], ['a']] = loc := Option.some.inj hloc
    decide
  · rw [List.mem_singleton.mp hp]
    exact ⟨fun h => absurd h (by decide), fun h => absurd h (by decide)⟩

/-- A file in the top directory of the system is printed as one in the root. -/
theorem top_file_printed : Short sampleSetting topFile ∧ ¬Maps sampleSetting [topFile] := by
  constructor
  · intro loc hloc
    obtain rfl : [['f']] = loc := Option.some.inj hloc
    decide
  · rintro ⟨out, hout, hlines, -⟩
    have hmain : wrparseMain sampleSetting.tree sampleSetting.start (sampleSetting.dir ++ ['/'])
        (inputText [topFile]) = some [([['f']], [['r']])] := by decide +kernel
    obtain rfl := Option.some.inj (hmain.symm.trans hout)
    exact absurd hlines (by decide +kernel)

end T2SDE.FlWrparse
