import T2SDE.QueueScan

namespace T2SDE

open Text Awk

/-- The characters of package names. -/
def packageChar (c : Char) : Bool := c.isAlphanum || "+-_.".toList.contains c

def PackageName (package : Str) : Prop := ∀ c ∈ package, packageChar c = true

instance (package : Str) : Decidable (PackageName package) :=
  decidable_of_iff (package.all packageChar = true) List.all_eq_true

theorem PackageName.not_mem {package : Str} {c : Char} (h : PackageName package)
    (hc : packageChar c = false) : c ∉ package := by
  intro hm
  simp [h c hm] at hc

/-- A packages file as the configuration writes it: every package once, and every line that
is switched on has a package name with the version behind it. -/
structure PackagesFile where
  lines : List Str
  distinct : (lines.map fun line => field (split line) 5).Nodup
  named : ∀ line ∈ lines, field (split line) 1 = "X".toList →
    5 < (split line).length ∧ PackageName (field (split line) 5)

theorem gsub_found {h : Char} {pat repl a s t : Str} (ha : h ∉ a) (hr : '&' ∉ repl)
    (hs : gsub (h :: pat) repl s = t) :
    gsub (h :: pat) repl (a ++ (h :: pat ++ s)) = a ++ (repl ++ t) := by
  rw [gsub_copy _ ha, gsub_here, replacement_plain hr, hs]

theorem digits_plain : ∀ s < 10, '<' ∉ digits s ∧ '&' ∉ digits s := by decide

theorem logPath_eq {logdir repository package ext : Str} {stagelevel : Nat}
    (hl : '<' ∉ logdir) (hs : stagelevel < 10) (hp : PackageName package) (he : '&' ∉ ext) :
    logPath logdir stagelevel repository package ext =
      logdir ++ "/".toList ++ digits stagelevel ++ "-".toList ++ package ++ ".".toList ++ ext := by
  have hlt : '<' ∉ package := hp.not_mem rfl
  have hamp : '&' ∉ package := hp.not_mem rfl
  obtain ⟨hd, hda⟩ := digits_plain stagelevel hs
  have h1 : gsub ('<' :: "stagelevel>".toList) (digits stagelevel)
      (logdir ++ "/".toList ++ ('<' :: "stagelevel>".toList ++ "-<package>.<log>".toList)) =
      logdir ++ "/".toList ++ (digits stagelevel ++ "-<package>.<log>".toList) :=
    gsub_found (by simp [hl]) hda rfl
  have h2 : gsub ('<' :: "repository>".toList) repository
      (logdir ++ "/".toList ++ (digits stagelevel ++ "-<package>.<log>".toList)) =
      logdir ++ "/".toList ++ (digits stagelevel ++ "-<package>.<log>".toList) := by
    rw [gsub_copy _ (by simp [hl]), gsub_copy _ hd]
    rfl
  have h3 : gsub ('<' :: "package>".toList) package
      (logdir ++ "/".toList ++ digits stagelevel ++ "-".toList ++
        ('<' :: "package>".toList ++ ".<log>".toList)) =
      logdir ++ "/".toList ++ digits stagelevel ++ "-".toList ++ (package ++ ".<log>".toList) :=
    gsub_found (by simp [hl, hd]) hamp rfl
  have h4 : gsub ('<' :: "log>".toList) ext
      (logdir ++ "/".toList ++ digits stagelevel ++ "-".toList ++ package ++ ".".toList ++
        ('<' :: "log>".toList ++ [])) =
      logdir ++ "/".toList ++ digits stagelevel ++ "-".toList ++ package ++ ".".toList ++ (ext ++ []) :=
    gsub_found (by simp [hl, hd, hlt]) he rfl
  have e1 : logdir ++ "/<stagelevel>-<package>.<log>".toList =
      logdir ++ "/".toList ++ ('<' :: "stagelevel>".toList ++ "-<package>.<log>".toList) := by simp
  have e3 : logdir ++ "/".toList ++ (digits stagelevel ++ "-<package>.<log>".toList) =
      logdir ++ "/".toList ++ digits stagelevel ++ "-".toList ++
        ('<' :: "package>".toList ++ ".<log>".toList) := by simp
  have e4 : logdir ++ "/".toList ++ digits stagelevel ++ "-".toList ++ (package ++ ".<log>".toList) =
      logdir ++ "/".toList ++ digits stagelevel ++ "-".toList ++ package ++ ".".toList ++
        ('<' :: "log>".toList ++ []) := by simp
  calc logPath logdir stagelevel repository package ext
      = gsub ('<' :: "log>".toList) ext (gsub ('<' :: "package>".toList) package
          (gsub ('<' :: "repository>".toList) repository
            (gsub ('<' :: "stagelevel>".toList) (digits stagelevel)
              (logdir ++ "/<stagelevel>-<package>.<log>".toList)))) := rfl
    _ = logdir ++ "/".toList ++ digits stagelevel ++ "-".toList ++ package ++ ".".toList ++ (ext ++ []) := by
        rw [e1, h1, h2, e3, h3, e4, h4]
    _ = _ := by rw [List.append_nil]

theorem literalPath_injective {logdir p q e f : Str} {s t : Nat} (hs : s < 10) (ht : t < 10)
    (he : e.length = 3) (hf : f.length = 3)
    (h : logdir ++ "/".toList ++ digits s ++ "-".toList ++ p ++ ".".toList ++ e =
      logdir ++ "/".toList ++ digits t ++ "-".toList ++ q ++ ".".toList ++ f) :
    s = t ∧ p = q ∧ e = f := by
  obtain ⟨hpre, hef⟩ := List.append_inj' h (by rw [he, hf])
  obtain ⟨hpre, _⟩ := List.append_inj' hpre rfl
  simp only [List.append_assoc, List.append_cancel_left_eq] at hpre
  have hone : ∀ n < 10, (digits n).length = 1 := by decide
  obtain ⟨hd, htail⟩ := List.append_inj hpre (by rw [hone s hs, hone t ht])
  have hdigits : ∀ m < 10, ∀ n < 10, digits m = digits n → m = n := by decide
  exact ⟨hdigits s hs t ht hd, by simpa using htail, hef⟩

end T2SDE
