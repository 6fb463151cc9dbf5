import Mathlib.Data.List.DropRight
import T2SDE.Lib.Echo
import T2SDE.Lib.ShellPattern

namespace T2SDE.ActiveInterfaces

open Text Shell

section Program

/-- `echo -n` with one argument -/
def echoN (s : Str) : Str := if Echo.isOption s then [] else s

def register (name activeInterfaces : Str) : Str := activeInterfaces ++ echoN (name ++ [','])

def unregister (name activeInterfaces : Str) : Str :=
  echoN (replaceAll (name ++ [',']) [] (activeInterfaces.rdropWhile (· == '\n')))

end Program

section Purpose

/-- An interface with profiles. -/
structure Name where
  text : Str
  form : ∃ interface profiles, text = interface ++ '(' :: profiles ++ [')']
  word : ∀ c ∈ text, c ≠ ',' ∧ c ≠ '\n'

instance : DecidableEq Name := fun n m =>
  decidable_of_iff (n.text = m.text) ⟨fun h => by cases n; cases m; cases h; rfl, congrArg Name.text⟩

inductive Call
  | register (n : Name)
  | unregister (n : Name)

def Call.run : Call → Str → Str
  | .register n => ActiveInterfaces.register n.text
  | .unregister n => ActiveInterfaces.unregister n.text

/-- The names that stay registered, in the order of their registration. -/
def Call.registered : Call → List Name → List Name
  | .register n, names => names ++ [n]
  | .unregister n, names => names.filter (· ≠ n)

/-- What is in the file for some names. -/
def listing (names : List Name) : Str := names.flatMap fun n => n.text ++ [',']

/-- What calls, each of them as it should be, make of the names and of the file. -/
inductive Run (Good : List Name → Call → Prop) : List Name → Str → Prop
  | start : Run Good [] []
  | call {names : List Name} {file : Str} (c : Call) (h : Run Good names file) (hgood : Good names c) :
      Run Good (c.registered names) (c.run file)

/-- A name that is taken out has nothing of a pattern, and no other name ends with it. -/
def Apart (names : List Name) : Call → Prop
  | .register _ => True
  | .unregister n => (∀ c ∈ n.text, c ∉ special) ∧ ∀ m ∈ names, n.text <:+ m.text → m = n

end Purpose

section Entries

variable {n m : Name} {names : List Name} {rest w e pattern : Str}

theorem Name.comma_free (n : Name) : ',' ∉ n.text := fun h => (n.word _ h).1 rfl

/-- An entry that does not end with the name is copied. -/
theorem replaceAll_entry (hw : ',' ∉ w) (he : ',' ∉ e) (hend : ¬w <:+ e)
    (h : Only pattern (w ++ [',']) (e ++ ',' :: rest)) :
    replaceAll pattern [] (e ++ ',' :: rest) = e ++ ',' :: replaceAll pattern [] rest := by
  induction e with
  | nil =>
    have hstart : ¬w ++ [','] <+: ',' :: rest := by
      intro hpre
      have hnil : w = [] := eq_of_prefix_sep hw List.not_mem_nil hpre
      exact hend (hnil ▸ List.nil_suffix)
    rw [List.nil_append, replaceAll_copy h hstart, List.nil_append]
  | cons c e ih =>
    have hstart : ¬w ++ [','] <+: c :: (e ++ ',' :: rest) := by
      intro hpre
      have hsame : w = c :: e := eq_of_prefix_sep hw he hpre
      exact hend (hsame ▸ List.suffix_rfl)
    have htail : e ++ ',' :: rest <:+: c :: (e ++ ',' :: rest) := (List.suffix_cons c _).isInfix
    have hrest : ¬w <:+ e := fun hsuf => hend (hsuf.trans (List.suffix_cons c e))
    have hcopy : replaceAll pattern [] (c :: (e ++ ',' :: rest)) =
      c :: replaceAll pattern [] (e ++ ',' :: rest) :=
      replaceAll_copy h hstart
    rw [List.cons_append, hcopy, ih (fun hmem => he (List.mem_cons_of_mem c hmem)) hrest (h.inside htail),
      List.cons_append]

/-- The entries of a name are taken out, and the others stay. -/
theorem replaceAll_listing (hplain : ∀ c ∈ n.text, c ∉ special)
    (hapart : ∀ m ∈ names, n.text <:+ m.text → m = n) :
    replaceAll (n.text ++ [',']) [] (listing names) = listing (names.filter (· ≠ n)) := by
  have honly : ∀ s, Only (n.text ++ [',']) (n.text ++ [',']) s := by
    intro s t _
    refine covers_literal (fun c hc => ?_) t
    rcases List.mem_append.mp hc with hc | hc
    · exact hplain c hc
    · rw [List.mem_singleton.mp hc]
      decide
  induction names with
  | nil => rfl
  | cons m names ih =>
    have hrest := ih fun o ho => hapart o (List.mem_cons_of_mem m ho)
    have hlisting : listing (m :: names) = m.text ++ [','] ++ listing names := rfl
    rw [hlisting]
    by_cases hm : m = n
    · subst hm
      rw [replaceAll_match (honly _) (by simp), List.nil_append, hrest, List.filter_cons_of_neg (by simp)]
    · have hend : ¬n.text <:+ m.text := fun hsuf => hm (hapart m List.mem_cons_self hsuf)
      have hentry : replaceAll (n.text ++ [',']) [] (m.text ++ ',' :: listing names) = _ :=
        replaceAll_entry n.comma_free m.comma_free hend (honly _)
      rw [List.append_assoc, List.singleton_append, hentry, hrest,
        List.filter_cons_of_pos (by simpa using hm)]
      simp [listing]

theorem isOption_comma (h : ',' ∈ w) : Echo.isOption w = false := by
  cases hoption : Echo.isOption w with
  | false => rfl
  | true =>
    unfold Echo.isOption at hoption
    split at hoption
    next c s =>
      have hletter := List.all_eq_true.mp hoption
      rcases List.mem_cons.mp h with heq | hmem
      · cases heq
      · exact absurd (hletter ',' hmem) (by decide)
    next => cases hoption

theorem echoN_listing (names : List Name) : echoN (listing names) = listing names := by
  cases names with
  | nil => rfl
  | cons m names => rw [echoN, isOption_comma (by simp [listing]), if_neg Bool.false_ne_true]

theorem listing_stripped (names : List Name) : (listing names).rdropWhile (· == '\n') = listing names := by
  rw [List.rdropWhile_eq_self_iff]
  intro hne
  obtain ⟨front, m, rfl⟩ : ∃ front m, names = front ++ [m] := by
    rcases List.eq_nil_or_concat names with rfl | ⟨front, m, rfl⟩
    · exact absurd rfl hne
    · exact ⟨front, m, List.concat_eq_append⟩
  simp [listing]

end Entries

/-- While no other name ends with one that is taken out, the file has what is registered. -/
theorem run_listing {names : List Name} {file : Str} (h : Run Apart names file) : file = listing names := by
  induction h with
  | start => rfl
  | @call names file c h hgood ih =>
    subst ih
    cases c with
    | register n =>
      have hcomma : ',' ∈ n.text ++ [','] := by simp
      rw [Call.run, register, echoN, isOption_comma hcomma, if_neg Bool.false_ne_true, Call.registered]
      simp [listing]
    | unregister n =>
      rw [Call.run, unregister, listing_stripped, replaceAll_listing hgood.1 hgood.2, echoN_listing,
        Call.registered]

section Sample

theorem word_of_all {text : Str} (h : (text.all fun c => c != ',' && c != '\n') = true) :
    ∀ c ∈ text, c ≠ ',' ∧ c ≠ '\n' := by
  simpa using h

/-- An interface with the profile `d`. -/
def sampleName (interface : Str) (h : (interface.all fun c => c != ',' && c != '\n') = true) : Name where
  text := interface ++ ['(', 'd', ')']
  form := ⟨interface, ['d'], by rw [List.append_assoc]; rfl⟩
  word := word_of_all (by rw [List.all_append, h]; rfl)

def eth0 : Name := sampleName ['e', 't', 'h', '0'] rfl

def veth0 : Name := sampleName ['v', 'e', 't', 'h', '0'] rfl

def wlan0 : Name := sampleName ['w', 'l', 'a', 'n', '0'] rfl

end Sample

/-- Of two interfaces one is taken out. -/
theorem listing_wlan0 :
    (Call.unregister eth0).run ((Call.register wlan0).run ((Call.register eth0).run [])) =
    listing [wlan0] := by
  have htwo : Run Apart [eth0, wlan0] ((Call.register wlan0).run ((Call.register eth0).run [])) :=
    .call (.register wlan0) (.call (.register eth0) .start trivial) trivial
  have hplain : ∀ c ∈ eth0.text, c ∉ special := by
    have hall : (eth0.text.all fun c => !special.contains c) = true := rfl
    simpa using hall
  have hapart : ∀ m ∈ [eth0, wlan0], eth0.text <:+ m.text → m = eth0 := by
    rintro m hm hsuf
    rcases List.mem_cons.mp hm with rfl | hm
    · rfl
    · rw [List.mem_singleton.mp hm] at hsuf
      exact absurd hsuf (by decide)
  exact run_listing (.call (.unregister eth0) htwo ⟨hplain, hapart⟩)

/-- The entry of `veth0` is cut down to its first letter with `eth0`. -/
theorem other_entry_cut : Run (fun _ _ => True) [veth0] ['v'] ∧ ['v'] ≠ listing [veth0] := by
  have hrun : Run (fun _ _ => True) [veth0] ((Call.unregister eth0).run ((Call.register veth0).run [])) :=
    .call (.unregister eth0) (.call (.register veth0) .start trivial) trivial
  have hfile : (Call.unregister eth0).run ((Call.register veth0).run []) = ['v'] := by decide
  rw [hfile] at hrun
  exact ⟨hrun, by decide⟩

end T2SDE.ActiveInterfaces
