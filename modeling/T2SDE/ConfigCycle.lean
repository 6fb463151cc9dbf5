import T2SDE.ConfigFile

namespace T2SDE.Config

open Text

inductive Item
  | choice (name default : Str) (values : List Str)
  | bool (name default : Str)
  | text (name default : Str)
  | const (name value : Str)

def Item.name : Item → Str
  | .choice name _ _ => name
  | .bool name _ => name
  | .text name _ => name
  | .const name _ => name

def Item.run (expand : Env → Str → Str) (s : Shell) : Item → Shell
  | .choice name default values => Config.choice expand name default values s
  | .bool name default => Config.bool expand name default s
  | .text name default => Config.text expand name default s
  | .const name value => Config.const name value s

/-- A configuration program; a condition is a test of the shell on its variables. -/
inductive Program
  | done
  | item (i : Item) (rest : Program)
  | expertBegin (rest : Program)
  | expertEnd (rest : Program)
  | cond (test : Env → Bool) (yes no rest : Program)

def Program.run (expand : Env → Str → Str) : Program → Shell → Shell
  | .done, s => s
  | .item i rest, s => rest.run expand (i.run expand s)
  | .expertBegin rest, s => rest.run expand (Config.expertBegin s)
  | .expertEnd rest, s => rest.run expand (Config.expertEnd s)
  | .cond test yes no rest, s =>
    rest.run expand (if test s.env then yes.run expand s else no.run expand s)

/-- A cycle: the config file is sourced, and the program writes it anew. -/
def start (env : Env) : Shell :=
  { env, expert := 0, config := [], data := [], item := [], menumode := 0 }

def cycle (expand : Env → Str → Str) (p : Program) (env : Env) (config : Str) : Str :=
  (p.run expand (start (source config env))).config

section Trace

variable (expand : Env → Str → Str)

/-- What a run assigns and writes, in order. -/
def Program.trace : Program → Shell → List (Str × Str)
  | .done, _ => []
  | .item i rest, s => (i.name, (i.run expand s).env i.name) :: rest.trace (i.run expand s)
  | .expertBegin rest, s => rest.trace (Config.expertBegin s)
  | .expertEnd rest, s => rest.trace (Config.expertEnd s)
  | .cond test yes no rest, s =>
    if test s.env then yes.trace s ++ rest.trace (yes.run expand s)
    else no.trace s ++ rest.trace (no.run expand s)

theorem setData_env (name default : Str) (s : Shell) :
    (setData expand name default s).env = Function.update s.env name (s.choose expand name default) := rfl

theorem setData_config (name default : Str) (s : Shell) :
    (setData expand name default s).config =
      s.config ++ (exportLine name ((setData expand name default s).env name) ++ ['\n']) := by
  rw [setData_env, Function.update_self]
  rfl

/-- The default that a choice hands on, after its check against the list. -/
def listedDefault (default : Str) (values : List Str) : Str :=
  let defval := if default = [] ∨ default ∈ values then default else []
  if defval ≠ [] then defval else values.headD []

/-- The shell after a choice has unset a value that is not in its list. -/
def Shell.keepListed (s : Shell) (name : Str) (values : List Str) : Shell :=
  if s.env name ∈ values then s else s.assign name []

theorem choice_eq (name default : Str) (values : List Str) (s : Shell) :
    choice expand name default values s =
      setData expand name (listedDefault default values) (s.keepListed name values) := rfl

theorem keepListed_env {s : Shell} {name x : Str} {values : List Str} (hx : x ≠ name) :
    (s.keepListed name values).env x = s.env x := by
  rw [Shell.keepListed]
  split
  · rfl
  · exact Function.update_of_ne hx ..

theorem keepListed_expert (s : Shell) (name : Str) (values : List Str) :
    (s.keepListed name values).expert = s.expert := by
  rw [Shell.keepListed]
  split <;> rfl

theorem keepListed_config (s : Shell) (name : Str) (values : List Str) :
    (s.keepListed name values).config = s.config := by
  rw [Shell.keepListed]
  split <;> rfl

/-- An item only sets its own variable. -/
theorem item_env {i : Item} {s : Shell} {x : Str} (hx : x ≠ i.name) : (i.run expand s).env x = s.env x := by
  cases i with
  | choice name default values =>
    rw [Item.name] at hx
    rw [Item.run, choice_eq, setData_env, Function.update_of_ne hx, keepListed_env hx]
  | bool name default => exact Function.update_of_ne hx ..
  | text name default => exact Function.update_of_ne hx ..
  | const name value => exact Function.update_of_ne hx ..

theorem item_expert (i : Item) (s : Shell) : (i.run expand s).expert = s.expert := by
  cases i with
  | choice name default values =>
    exact keepListed_expert s name values
  | _ => rfl

theorem item_config (i : Item) (s : Shell) :
    (i.run expand s).config = s.config ++ configText [(i.name, (i.run expand s).env i.name)] := by
  have htext (name value : Str) : configText [(name, value)] = exportLine name value ++ ['\n'] := by
    simp [configText]
  rw [htext]
  cases i with
  | choice name default values =>
    rw [Item.run, Item.name, choice_eq, setData_config, keepListed_config]
  | bool name default => exact setData_config expand name default s
  | text name default => exact setData_config expand name default s
  | const name value =>
    have henv : (const name value s).env name = value := Function.update_self ..
    rw [Item.name, Item.run, henv]
    rfl

/-- A run writes its trace behind what is in the file. -/
theorem run_appends (p : Program) (s : Shell) :
    (p.run expand s).config = s.config ++ configText (p.trace expand s) := by
  have happend (as bs : List (Str × Str)) : configText (as ++ bs) = configText as ++ configText bs := by
    simp [configText]
  induction p generalizing s with
  | done => simp [Program.run, Program.trace, configText]
  | item i rest ih =>
    rw [Program.run, ih, item_config, List.append_assoc, ← happend]
    rfl
  | expertBegin rest ih => exact ih (Config.expertBegin s)
  | expertEnd rest ih => exact ih (Config.expertEnd s)
  | cond test yes no rest ihyes ihno ihrest =>
    rw [Program.run, ihrest, Program.trace]
    split
    · rw [ihyes, happend, List.append_assoc]
    · rw [ihno, happend, List.append_assoc]

theorem cycle_eq (p : Program) (env : Env) (config : Str) :
    cycle expand p env config = configText (p.trace expand (start (source config env))) := by
  rw [cycle, run_appends]
  rfl

/-- A run sets the variables of its trace only. -/
theorem run_env {p : Program} {s : Shell} {x : Str} (hx : ∀ a ∈ p.trace expand s, a.1 ≠ x) :
    (p.run expand s).env x = s.env x := by
  induction p generalizing s with
  | done => rfl
  | item i rest ih =>
    rw [Program.run, ih fun a ha => hx a (List.mem_cons_of_mem _ ha)]
    exact item_env expand fun h => hx _ List.mem_cons_self h.symm
  | expertBegin rest ih => exact ih hx
  | expertEnd rest ih => exact ih hx
  | cond test yes no rest ihyes ihno ihrest =>
    rw [Program.trace] at hx
    rw [Program.run]
    split at hx
    next htest =>
      rw [if_pos htest, ihrest fun a ha => hx a (List.mem_append_right _ ha)]
      exact ihyes fun a ha => hx a (List.mem_append_left _ ha)
    next htest =>
      rw [if_neg htest, ihrest fun a ha => hx a (List.mem_append_right _ ha)]
      exact ihno fun a ha => hx a (List.mem_append_left _ ha)

end Trace

section Fixpoint

/-- Text that the shell leaves as it is inside double quotes and a default value. -/
def Literal (text : Str) : Prop := ∀ c ∈ text, c ∉ ['$', '`', '"', '\\', '}']

def expertName : Str := "SDECFG_EXPERT".toList

/-- What an item that asks relies on: its variable is new, its preset is settled, and in an expert
section the expert setting is settled too. -/
structure Asks (known : Str → Prop) (s : Shell) (name default : Str) : Prop where
  isName : IsName name
  fresh : ¬known name
  preset : known (presetName name)
  literal : Literal default
  expert : s.expert ≠ 0 → known expertName

def Item.Sound (known : Str → Prop) (s : Shell) : Item → Prop
  | .choice name default values => Asks known s name default ∧ ∀ v ∈ values, Literal v
  | .bool name default => Asks known s name default
  | .text name default => Asks known s name default
  | .const name _ => IsName name ∧ ¬known name

variable (expand : Env → Str → Str)

/-- Along a run every item is sound, and every test depends on variables only that are settled or
were set before. -/
def Program.Sound (known : Str → Prop) : Program → Shell → Prop
  | .done, _ => True
  | .item i rest, s => i.Sound known s ∧ rest.Sound (fun x => known x ∨ x = i.name) (i.run expand s)
  | .expertBegin rest, s => rest.Sound known (Config.expertBegin s)
  | .expertEnd rest, s => rest.Sound known (Config.expertEnd s)
  | .cond test yes no rest, s =>
    (∀ env : Env, (∀ x, known x → env x = s.env x) → test env = test s.env) ∧
      if test s.env then
        yes.Sound known s ∧
          rest.Sound (fun x => known x ∨ ∃ a ∈ yes.trace expand s, a.1 = x) (yes.run expand s)
      else
        no.Sound known s ∧
          rest.Sound (fun x => known x ∨ ∃ a ∈ no.trace expand s, a.1 = x) (no.run expand s)

/-- The second run has the same settled variables, and an expert setting that is a number. -/
structure Again (known : Str → Prop) (s t : Shell) : Prop where
  known : ∀ x, known x → t.env x = s.env x
  expert : t.expert = s.expert
  number : number (t.env expertName) ≠ none

theorem shown_eq (s : Shell) :
    s.shown = (number (s.env expertName)).elim false fun n => n == 1 || s.expert == 0 := by
  unfold Shell.shown expertName
  cases number (s.env "SDECFG_EXPERT".toList) <;> rfl

theorem shown_of_number {s : Shell} (hexpert : s.expert = 0) (hnumber : number (s.env expertName) ≠ none) :
    s.shown = true := by
  obtain ⟨n, hn⟩ := Option.ne_none_iff_exists'.mp hnumber
  rw [shown_eq, hn, hexpert]
  simp

theorem shown_congr {s t : Shell} (hexpert : t.expert = s.expert)
    (henv : t.env expertName = s.env expertName) : t.shown = s.shown := by
  rw [shown_eq, shown_eq, hexpert, henv]

/-- The value that was chosen is chosen again, if an item that was shown with another value than
its default is shown again. -/
theorem choose_again {s t : Shell} {name default : Str} (hexpand : ∀ env, expand env default = default)
    (hpreset : t.env (presetName name) = s.env (presetName name))
    (hshown : s.env (presetName name) = [] → s.shown = true →
      t.shown = true ∨ s.choose expand name default = default)
    (hvalue : t.env name = s.choose expand name default ∨
      t.env name = [] ∧ (s.env (presetName name) = [] → s.choose expand name default = default)) :
    t.choose expand name default = s.choose expand name default := by
  by_cases hp : s.env (presetName name) = []
  · have ht : t.choose expand name default = t.env name ∧ t.env name ≠ [] ∨
        t.choose expand name default = default ∧ (t.env name = [] ∨ t.shown = false) := by
      rw [Shell.choose, hpreset, if_neg (by simpa using hp)]
      cases hts : t.shown with
      | false => exact .inr ⟨by simp, .inr rfl⟩
      | true =>
        by_cases hn : t.env name = []
        · exact .inr ⟨by simp [hn, hexpand], .inl hn⟩
        · exact .inl ⟨by simp [hn], hn⟩
    have hs : s.shown = false → s.choose expand name default = default := by
      intro h
      rw [Shell.choose, if_neg (by simpa using hp), h]
      rfl
    have hempty : s.choose expand name default = [] → default = [] := by
      intro h
      rw [Shell.choose, if_neg (by simpa using hp)] at h
      split at h
      next =>
        split at h
        next hn => exact absurd h hn
        next => rwa [hexpand] at h
      next => exact h
    rcases ht with ⟨ht, hn⟩ | ⟨ht, hreason⟩
    · rw [ht]
      rcases hvalue with hv | ⟨hv, _⟩
      · exact hv
      · exact absurd hv hn
    · rw [ht]
      rcases hreason with hn | hhidden
      · rcases hvalue with hv | ⟨_, hv⟩
        · rw [hv] at hn
          rw [hn, hempty hn]
        · exact (hv hp).symm
      · cases hss : s.shown with
        | false => exact (hs hss).symm
        | true =>
          rcases hshown hp hss with h | h
          · simp [hhidden] at h
          · exact h.symm
  · rw [Shell.choose, hpreset, if_pos hp, Shell.choose, if_pos hp]

theorem shown_again {known : Str → Prop} {s t : Shell} (h : Again known s t)
    (hexpert : s.expert ≠ 0 → known expertName) (hs : s.shown = true) : t.shown = true := by
  by_cases h0 : s.expert = 0
  · exact shown_of_number (h.expert.trans h0) h.number
  · rw [shown_congr h.expert (h.known expertName (hexpert h0))]
    exact hs

/-- A value that a choice has chosen outside its list is its default. -/
theorem choose_listed {s : Shell} {name default : Str} {values : List Str}
    (hexpand : ∀ env, expand env default = default) (hp : s.env (presetName name) = [])
    (hpreset : presetName name ≠ name)
    (hv : (s.keepListed name values).choose expand name default ∉ values) :
    (s.keepListed name values).choose expand name default = default := by
  have hp' : (s.keepListed name values).env (presetName name) = [] := by rwa [keepListed_env hpreset]
  by_cases hn : (s.keepListed name values).env name = []
  · simp [Shell.choose, hp', hn, hexpand]
  · have hmem : (s.keepListed name values).env name ∈ values := by
      unfold Shell.keepListed at hn ⊢
      split
      next hmem => exact hmem
      next hmem =>
        rw [if_neg hmem] at hn
        exact absurd (Function.update_self ..) hn
    cases hs : (s.keepListed name values).shown with
    | false => simp [Shell.choose, hp', hs]
    | true =>
      have hchoose : (s.keepListed name values).choose expand name default =
          (s.keepListed name values).env name := by simp [Shell.choose, hp', hn, hs]
      rw [hchoose] at hv
      exact absurd hmem hv

theorem literal_listedDefault {default : Str} {values : List Str} (hd : Literal default)
    (hvs : ∀ v ∈ values, Literal v) : Literal (listedDefault default values) := by
  have hnil : Literal [] := by simp [Literal]
  have hhead : Literal (values.headD []) := by
    cases values with
    | nil => exact hnil
    | cons v values => exact hvs v (by simp)
  have hlisted : listedDefault default values = default ∨
      listedDefault default values = values.headD [] := by
    unfold listedDefault
    dsimp only
    split_ifs <;> simp_all
  rcases hlisted with hl | hl
  · rwa [hl]
  · rwa [hl]

variable (hexpand : ∀ env text, Literal text → expand env text = text)

include hexpand in
theorem choice_again {known : Str → Prop} {s t : Shell} {name default : Str} {values : List Str}
    (hask : Asks known s name default) (hvs : ∀ v ∈ values, Literal v) (h : Again known s t)
    (hv : t.env name = (choice expand name default values s).env name) :
    (choice expand name default values t).env name = (choice expand name default values s).env name := by
  have hpreset : presetName name ≠ name := fun he => hask.fresh (he ▸ hask.preset)
  have hd : ∀ env, expand env (listedDefault default values) = listedDefault default values :=
    fun env => hexpand env _ (literal_listedDefault hask.literal hvs)
  simp only [choice_eq, setData_env, Function.update_self] at hv ⊢
  have hsp : (s.keepListed name values).env (presetName name) = s.env (presetName name) :=
    keepListed_env hpreset
  refine choose_again expand hd ?_ ?_ ?_
  · rw [keepListed_env hpreset, hsp]
    exact h.known _ hask.preset
  · intro hp hs
    by_cases hlisted : t.env name ∈ values
    · left
      have ht : t.keepListed name values = t := if_pos hlisted
      rw [ht]
      by_cases hname : expertName = name
      · -- the expert setting itself stands outside the expert sections
        have h0 : s.expert = 0 := by
          by_contra hne
          exact hask.fresh (hname ▸ hask.expert hne)
        exact shown_of_number (h.expert.trans h0) h.number
      · refine shown_again h hask.expert ?_
        rwa [← shown_congr (keepListed_expert s name values) (keepListed_env hname)]
    · right
      rw [hv] at hlisted
      exact choose_listed expand hd (hsp ▸ hp) hpreset hlisted
  · by_cases hlisted : t.env name ∈ values
    · left
      have ht : t.keepListed name values = t := if_pos hlisted
      rw [ht]
      exact hv
    · right
      have ht : t.keepListed name values = t.assign name [] := if_neg hlisted
      refine ⟨by rw [ht]; exact Function.update_self .., fun hp => ?_⟩
      rw [hv] at hlisted
      exact choose_listed expand hd (hsp ▸ hp) hpreset hlisted

include hexpand in
theorem setData_again {known : Str → Prop} {s t : Shell} {name default : Str}
    (hask : Asks known s name default) (h : Again known s t)
    (hv : t.env name = (setData expand name default s).env name) :
    (setData expand name default t).env name = (setData expand name default s).env name := by
  rw [setData_env, Function.update_self] at hv ⊢
  rw [setData_env, Function.update_self]
  refine choose_again expand (fun env => hexpand env _ hask.literal) (h.known _ hask.preset) ?_ (.inl hv)
  exact fun _ hs => .inl (shown_again h hask.expert hs)

include hexpand in
/-- An item gives its variable the same value again. -/
theorem item_again {known : Str → Prop} {s t : Shell} {i : Item} (hi : i.Sound known s)
    (h : Again known s t) (hv : t.env i.name = (i.run expand s).env i.name) :
    (i.run expand t).env i.name = (i.run expand s).env i.name := by
  cases i with
  | choice name default values => exact choice_again expand hexpand hi.1 hi.2 h hv
  | bool name default => exact setData_again expand hexpand hi h hv
  | text name default => exact setData_again expand hexpand hi h hv
  | const name value =>
    have henv (s : Shell) : (const name value s).env name = value := Function.update_self ..
    rw [Item.name, Item.run, Item.run, henv, henv]

theorem Again.item {known : Str → Prop} {s t : Shell} {i : Item} (h : Again known s t)
    (hvalue : (i.run expand t).env i.name = (i.run expand s).env i.name)
    (hnumber : i.name = expertName → Config.number ((i.run expand s).env i.name) ≠ none) :
    Again (fun x => known x ∨ x = i.name) (i.run expand s) (i.run expand t) := by
  refine ⟨?_, ?_, ?_⟩
  · intro x hx
    by_cases hname : x = i.name
    · rw [hname, hvalue]
    · rw [item_env expand hname, item_env expand hname]
      exact h.known x (hx.resolve_right hname)
  · rw [item_expert, item_expert]
    exact h.expert
  · by_cases hname : expertName = i.name
    · rw [hname, hvalue]
      exact hnumber hname.symm
    · rw [item_env expand hname]
      exact h.number

/-- The variables of a sound run are new. -/
theorem sound_fresh {p : Program} {known : Str → Prop} {s : Shell} (h : p.Sound expand known s)
    {a : Str × Str} (ha : a ∈ p.trace expand s) : ¬known a.1 ∧ IsName a.1 := by
  induction p generalizing known s with
  | done => simp [Program.trace] at ha
  | item i rest ih =>
    rw [Program.trace, List.mem_cons] at ha
    rcases ha with rfl | ha
    · cases i with
      | choice name default values => exact ⟨h.1.1.fresh, h.1.1.isName⟩
      | bool name default => exact ⟨h.1.fresh, h.1.isName⟩
      | text name default => exact ⟨h.1.fresh, h.1.isName⟩
      | const name value => exact ⟨h.1.2, h.1.1⟩
    · obtain ⟨hfresh, hname⟩ := ih h.2 ha
      exact ⟨fun hk => hfresh (.inl hk), hname⟩
  | expertBegin rest ih => exact ih h ha
  | expertEnd rest ih => exact ih h ha
  | cond test yes no rest ihyes ihno ihrest =>
    rw [Program.trace] at ha
    obtain ⟨_, h⟩ := h
    split at ha
    next htest =>
      rw [if_pos htest] at h
      rcases List.mem_append.mp ha with ha | ha
      · exact ihyes h.1 ha
      · obtain ⟨hfresh, hname⟩ := ihrest h.2 ha
        exact ⟨fun hk => hfresh (.inl hk), hname⟩
    next htest =>
      rw [if_neg htest] at h
      rcases List.mem_append.mp ha with ha | ha
      · exact ihno h.1 ha
      · obtain ⟨hfresh, hname⟩ := ihrest h.2 ha
        exact ⟨fun hk => hfresh (.inl hk), hname⟩

theorem sound_nodup {p : Program} {known : Str → Prop} {s : Shell} (h : p.Sound expand known s) :
    ((p.trace expand s).map Prod.fst).Nodup := by
  induction p generalizing known s with
  | done => exact List.nodup_nil
  | item i rest ih =>
    rw [Program.trace, List.map_cons, List.nodup_cons]
    refine ⟨?_, ih h.2⟩
    rw [List.mem_map]
    rintro ⟨a, ha, hname⟩
    exact (sound_fresh expand h.2 ha).1 (.inr hname)
  | expertBegin rest ih => exact ih h
  | expertEnd rest ih => exact ih h
  | cond test yes no rest ihyes ihno ihrest =>
    have happend {first : List (Str × Str)} {after : Shell} (hfirst : (first.map Prod.fst).Nodup)
        (hrest : rest.Sound expand (fun x => known x ∨ ∃ a ∈ first, a.1 = x) after) :
        ((first ++ rest.trace expand after).map Prod.fst).Nodup := by
      rw [List.map_append, List.nodup_append]
      refine ⟨hfirst, ihrest hrest, ?_⟩
      intro x hx y hy hxy
      obtain ⟨a, ha, rfl⟩ := List.mem_map.mp hx
      obtain ⟨b, hb, rfl⟩ := List.mem_map.mp hy
      exact (sound_fresh expand hrest hb).1 (.inr ⟨a, ha, hxy⟩)
    obtain ⟨_, h⟩ := h
    rw [Program.trace]
    split
    next htest =>
      rw [if_pos htest] at h
      exact happend (ihyes h.1) h.2
    next htest =>
      rw [if_neg htest] at h
      exact happend (ihno h.1) h.2

include hexpand in
/-- A run from a shell that has the values of a sound run already goes the same way. -/
theorem run_again {p : Program} {known : Str → Prop} {s t : Shell} (hp : p.Sound expand known s)
    (h : Again known s t) (hvalues : ∀ a ∈ p.trace expand s, t.env a.1 = a.2)
    (hnumber : ∀ a ∈ p.trace expand s, a.1 = expertName → number a.2 ≠ none) :
    p.trace expand t = p.trace expand s ∧
      Again (fun x => known x ∨ ∃ a ∈ p.trace expand s, a.1 = x) (p.run expand s) (p.run expand t) := by
  induction p generalizing known s t with
  | done =>
    refine ⟨rfl, ?_, h.expert, h.number⟩
    intro x hx
    rcases hx with hx | ⟨a, ha, _⟩
    · exact h.known x hx
    · simp [Program.trace] at ha
  | item i rest ih =>
    have hvalue := item_again expand hexpand hp.1 h (hvalues _ List.mem_cons_self)
    have hagain := h.item expand hvalue (hnumber _ List.mem_cons_self)
    obtain ⟨htrace, hrest⟩ := ih hp.2 hagain
      (fun a ha => by
        have hne : a.1 ≠ i.name := fun he => (sound_fresh expand hp.2 ha).1 (.inr he)
        rw [item_env expand hne]
        exact hvalues a (List.mem_cons_of_mem _ ha))
      (fun a ha => hnumber a (List.mem_cons_of_mem _ ha))
    refine ⟨?_, ⟨?_, hrest.expert, hrest.number⟩⟩
    · rw [Program.trace, Program.trace, htrace, hvalue]
    · intro x hx
      refine hrest.known x ?_
      rcases hx with hx | ⟨a, ha, rfl⟩
      · exact .inl (.inl hx)
      · rcases List.mem_cons.mp ha with rfl | ha
        · exact .inl (.inr rfl)
        · exact .inr ⟨a, ha, rfl⟩
  | expertBegin rest ih => exact ih hp ⟨h.known, rfl, h.number⟩ hvalues hnumber
  | expertEnd rest ih => exact ih hp ⟨h.known, rfl, h.number⟩ hvalues hnumber
  | cond test yes no rest ihyes ihno ihrest =>
    obtain ⟨htest, hp⟩ := hp
    have hsame : test t.env = test s.env := htest t.env h.known
    -- one branch and the rest
    have hboth {branch : Program} (hbranch : branch.trace expand t = branch.trace expand s ∧
          Again (fun x => known x ∨ ∃ a ∈ branch.trace expand s, a.1 = x) (branch.run expand s)
          (branch.run expand t))
        (hrest : rest.Sound expand (fun x => known x ∨ ∃ a ∈ branch.trace expand s, a.1 = x)
          (branch.run expand s))
        (hvalues : ∀ a ∈ branch.trace expand s ++ rest.trace expand (branch.run expand s), t.env a.1 = a.2)
        (hnumber : ∀ a ∈ branch.trace expand s ++ rest.trace expand (branch.run expand s),
          a.1 = expertName → number a.2 ≠ none) :
        branch.trace expand t ++ rest.trace expand (branch.run expand t) =
            branch.trace expand s ++ rest.trace expand (branch.run expand s) ∧
          Again (fun x => known x ∨ ∃ a ∈ branch.trace expand s ++ rest.trace expand
            (branch.run expand s), a.1 = x)
            (rest.run expand (branch.run expand s)) (rest.run expand (branch.run expand t)) := by
      obtain ⟨htrace, hagain⟩ := ihrest hrest hbranch.2
        (fun a ha => by
          have hold : ∀ b ∈ branch.trace expand t, b.1 ≠ a.1 := by
            rw [hbranch.1]
            exact fun b hb he => (sound_fresh expand hrest ha).1 (.inr ⟨b, hb, he⟩)
          rw [run_env expand hold]
          exact hvalues a (List.mem_append_right _ ha))
        (fun a ha => hnumber a (List.mem_append_right _ ha))
      refine ⟨by rw [hbranch.1, htrace], ⟨?_, hagain.expert, hagain.number⟩⟩
      intro x hx
      refine hagain.known x ?_
      rcases hx with hx | ⟨a, ha, rfl⟩
      · exact .inl (.inl hx)
      · rcases List.mem_append.mp ha with ha | ha
        · exact .inl (.inr ⟨a, ha, rfl⟩)
        · exact .inr ⟨a, ha, rfl⟩
    simp only [Program.trace, Program.run, hsame] at hvalues hnumber ⊢
    cases hs : test s.env with
    | true =>
      simp only [hs, if_true] at hp hvalues hnumber ⊢
      refine hboth (ihyes hp.1 h ?_ ?_) hp.2 hvalues hnumber
      · exact fun a ha => hvalues a (List.mem_append_left _ ha)
      · exact fun a ha => hnumber a (List.mem_append_left _ ha)
    | false =>
      simp only [hs, Bool.false_eq_true, if_false] at hp hvalues hnumber ⊢
      refine hboth (ihno hp.1 h ?_ ?_) hp.2 hvalues hnumber
      · exact fun a ha => hvalues a (List.mem_append_left _ ha)
      · exact fun a ha => hnumber a (List.mem_append_left _ ha)

/-- A variable that neither the old config file nor the run sets. -/
def Settled (p : Program) (env : Env) (config : Str) (x : Str) : Prop :=
  sourced config x = none ∧ ∀ a ∈ p.trace expand (start (source config env)), a.1 ≠ x

theorem lastValue_mem {as : List (Str × Str)} {x v : Str} (h : lastValue as x = some v) : (x, v) ∈ as := by
  induction as using List.reverseRecOn with
  | nil => simp [lastValue] at h
  | append_singleton as a ih =>
    rw [lastValue_concat] at h
    split at h
    next hname =>
      cases Option.some.inj h
      rw [← hname]
      simp
    next => exact List.mem_append_left _ (ih h)

theorem lastValue_of_nodup {as : List (Str × Str)} (hnodup : (as.map Prod.fst).Nodup) {a : Str × Str}
    (ha : a ∈ as) : lastValue as a.1 = some a.2 := by
  induction as using List.reverseRecOn with
  | nil => simp at ha
  | append_singleton as b ih =>
    rw [List.map_append, List.nodup_append] at hnodup
    obtain ⟨hinit, _, hdisjoint⟩ := hnodup
    rw [lastValue_concat]
    rcases List.mem_append.mp ha with ha | ha
    · have hne : b.1 ≠ a.1 := fun h => hdisjoint a.1 (List.mem_map_of_mem ha) b.1 (by simp) h.symm
      rw [if_neg hne]
      exact ih hinit ha
    · rw [List.mem_singleton.mp ha, if_pos rfl]

theorem lastValue_eq_none {as : List (Str × Str)} {x : Str} (h : ∀ a ∈ as, a.1 ≠ x) :
    lastValue as x = none := by
  cases hv : lastValue as x with
  | none => rfl
  | some v => exact absurd rfl (h _ (lastValue_mem hv))

include hexpand in
/-- A second cycle on the config file that the first has written writes it again. -/
theorem config_fixpoint {p : Program} {env : Env} {config : Str}
    (hp : p.Sound expand (Settled expand p env config) (start (source config env)))
    (henv : number (env expertName) ≠ none)
    (hset : ∀ a ∈ p.trace expand (start (source config env)), a.1 = expertName → number a.2 ≠ none) :
    cycle expand p env (cycle expand p env config) = cycle expand p env config := by
  have hnames : ∀ a ∈ p.trace expand (start (source config env)), '=' ∉ a.1 :=
    fun a ha => (sound_fresh expand hp ha).2.no_equals
  have hsourced := sourced_configText hnames
  have hagain : Again (Settled expand p env config) (start (source config env))
      (start (source (configText (p.trace expand (start (source config env)))) env)) := by
    refine ⟨?_, rfl, ?_⟩
    · intro x hx
      change (sourced _ x).getD (env x) = (sourced config x).getD (env x)
      rw [hsourced, lastValue_eq_none hx.2, hx.1]
    · change number ((sourced _ expertName).getD (env expertName)) ≠ none
      rw [hsourced]
      cases hv : lastValue (p.trace expand (start (source config env))) expertName with
      | none => exact henv
      | some v => exact hset _ (lastValue_mem hv) rfl
  have hvalues : ∀ a ∈ p.trace expand (start (source config env)),
      (start (source (configText (p.trace expand (start (source config env)))) env)).env a.1 = a.2 := by
    intro a ha
    change (sourced _ a.1).getD (env a.1) = a.2
    rw [hsourced, lastValue_of_nodup (sound_nodup expand hp) ha]
    rfl
  rw [cycle_eq, cycle_eq, (run_again expand hexpand hp hagain hvalues hset).1]

theorem isName_of_all {name : Str} (hne : name ≠ [])
    (h : (name.all fun c => c.isAlphanum || c == '_') = true) :
    IsName name := by
  refine ⟨hne, fun c hc => ?_⟩
  have hchar := List.all_eq_true.mp h c hc
  rwa [Bool.or_eq_true, beq_iff_eq] at hchar

theorem literal_of_all {text : Str} (h : (text.all fun c => decide (c ∉ ['$', '`', '"', '\\', '}'])) = true) :
    Literal text := fun c hc => of_decide_eq_true (List.all_eq_true.mp h c hc)

omit expand in
/-- An expert section behind the expert setting, with a test of an item in it. -/
theorem config_fixpoint_sample :
    let p : Program := .item (.bool expertName "0".toList) (.expertBegin
      (.item (.choice "SDECFG_B".toList "x".toList ["x".toList, "y".toList]) (.expertEnd
        (.cond (fun env => env "SDECFG_B".toList == "y".toList)
          (.item (.const "SDECFG_C".toList "it's".toList) .done)
          .done .done))))
    let env : Env := fun x => if x = expertName then "0".toList else []
    let config := configText [(expertName, "1".toList), ("SDECFG_B".toList, "y".toList)]
    cycle (fun _ text => text) p env (cycle (fun _ text => text) p env config) =
      cycle (fun _ text => text) p env config := by
  intro p env config
  refine config_fixpoint _ (fun _ _ _ => rfl) ⟨?_, ⟨⟨?_, ?_⟩, ?_⟩⟩ (by decide) (by decide +kernel)
  · exact ⟨isName_of_all (by decide) (by decide), by unfold Settled; decide +kernel,
      by unfold Settled; decide +kernel,
      literal_of_all (by decide), fun h => absurd rfl h⟩
  · exact ⟨isName_of_all (by decide) (by decide), by unfold Settled; decide +kernel,
      .inl (by unfold Settled; decide +kernel), literal_of_all (by decide), fun _ => .inr rfl⟩
  · have hoptions : (["x".toList, "y".toList].all fun o => o.all fun c =>
      decide (c ∉ ['$', '`', '"', '\\', '}'])) = true := by
      decide
    exact fun o ho => literal_of_all (List.all_eq_true.mp hoptions o ho)
  · refine ⟨?_, ?_⟩
    · exact fun env' h => congrArg (· == "y".toList) (h "SDECFG_B".toList (.inr rfl))
    · rw [if_pos (by decide +kernel)]
      exact ⟨⟨⟨isName_of_all (by decide) (by decide), by unfold Settled; decide +kernel⟩, trivial⟩, trivial⟩

omit expand in
/-- An item of an expert section in front of the expert setting, which a preset changes, and an
expert setting that is no number: the item is shown in the first cycle only. -/
theorem cycle_not_fixpoint :
    (let p : Program := .expertBegin (.item (.text "SDECFG_A".toList "a".toList)
        (.expertEnd (.item (.bool expertName "0".toList) .done)))
      let env : Env := fun x => if x = expertName ∨ x = "SDECFGSET_EXPERT".toList then "0".toList else []
      let config := configText [(expertName, "1".toList), ("SDECFG_A".toList, "v".toList)]
      cycle (fun _ text => text) p env (cycle (fun _ text => text) p env config) ≠
        cycle (fun _ text => text) p env config) ∧
    (let p : Program := .item (.text "SDECFG_A".toList "a".toList) (.item (.bool expertName "0".toList) .done)
      let env : Env := fun x =>
        if x = expertName then "0".toList else if x = "SDECFGSET_EXPERT".toList then "yes".toList else []
      let config := configText [("SDECFG_A".toList, "v".toList)]
      cycle (fun _ text => text) p env (cycle (fun _ text => text) p env config) ≠
        cycle (fun _ text => text) p env config) := by
  decide +kernel

end Fixpoint

end T2SDE.Config
