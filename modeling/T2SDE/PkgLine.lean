import T2SDE.PkgList
import T2SDE.Lib.LuaMatch

namespace T2SDE

open Text Lua

def stageChar (c : Char) : Bool := "0123456789?-".toList.contains c
def priorityChar (c : Char) : Bool := "0123456789.".toList.contains c
def categoryChar (c : Char) : Bool := "abcdefghijklmnopqrstuvwxyz0123456789/".toList.contains c
def flagChar (c : Char) : Bool := "ABCDEFGHIJKLMNOPQRSTUVWXYZ0123456789_-".toList.contains c

/-- A token without white space and slashes. -/
def Plain (s : Str) : Prop := s ≠ [] ∧ ∀ c ∈ s, percentClass 'S' c = true ∧ c ≠ '/'

instance (s : Str) : Decidable (Plain s) :=
  decidable_of_iff (s ≠ [] ∧ s.all (fun c => percentClass 'S' c && c != '/') = true) (by
    simp [Plain, List.all_eq_true])

/-- A token of characters that pass a test, with a letter in front. -/
def Tag (letter char : Char → Bool) (s : Str) : Prop :=
  (∃ c t, s = c :: t ∧ letter c = true) ∧ ∀ c ∈ s, char c = true

structure PkgLine where
  status : Selection
  stages : Str
  priority : Str
  repository : Str
  name : Str
  ver : Str
  extraver : Option Str
  categories : List Str
  flags : List Str
  stages_ok : stages ≠ [] ∧ ∀ c ∈ stages, stageChar c = true
  priority_ok : priority ≠ [] ∧ ∀ c ∈ priority, priorityChar c = true
  repository_ok : Plain repository
  name_ok : Plain name
  ver_ok : Plain ver
  extraver_ok : ∀ s ∈ extraver, Plain s
  categories_ne : categories ≠ []
  categories_ok : ∀ s ∈ categories, Tag Char.isLower categoryChar s
  flags_ok : ∀ s ∈ flags, Tag Char.isUpper flagChar s

def words (ws : List Str) : Str := [' '].intercalate ws

def PkgLine.text (l : PkgLine) : Str :=
  l.status.text ++ " ".toList ++ l.stages ++ " ".toList ++ l.priority ++ " ".toList ++
    l.repository ++ " ".toList ++ l.name ++ " ".toList ++ l.ver ++
    (match l.extraver with
      | some extraver => " ".toList ++ extraver
      | none => []) ++
    " / ".toList ++ words l.categories ++
    (if l.flags = [] then [] else " ".toList ++ words l.flags) ++ " 0".toList

/-- The package with the fields of the line. -/
def PkgLine.package (l : PkgLine) : Package :=
  { status := .selected l.status, stages := l.stages, priority := l.priority
    repository := l.repository, name := l.name, ver := l.ver, extraver := l.extraver.getD []
    categories := some (words l.categories), flags := words l.flags, aliasName := l.name
    defaultStatus := l.status }

def listText (lines : List PkgLine) : Str := lines.flatMap fun l => l.text ++ ['\n']

def stagesClass : CharClass := .set false ("0123456789?-".toList.map .char)
def priorityClass : CharClass := .set false ("0123456789.".toList.map .char)
def categoriesClass : CharClass := .set false ("abcdefghijklmnopqrstuvwxyz0123456789/ ".toList.map .char)
def flagsClass : CharClass := .set false ("ABCDEFGHIJKLMNOPQRSTUVWXYZ0123456789 _-".toList.map .char)

/-- A captured field with the blanks behind it. -/
def fieldItems (cls : CharClass) (items : List Item) : List Item :=
  .openCapture :: .single cls .plus :: .closeCapture :: .single (.char ' ') .star :: items

def flagItems : List Item :=
  [.single (.char ' ') .star, .openCapture, .single flagsClass .star, .closeCapture,
    .single (.char ' ') .one, .single (.char '0') .one]

def categoryItems : List Item :=
  .openCapture :: .single categoriesClass .plus :: .closeCapture :: flagItems

def extraverItems : List Item :=
  .openCapture :: .single (.percent 'S') .star :: .closeCapture :: .single (.char ' ') .star ::
    .single (.char '/') .one :: .single (.char ' ') .one :: categoryItems

/-- The pattern of `pkglistread`, item by item. -/
def pkgItems : List Item :=
  .openCapture :: .single (.set false ("XO".toList.map .char)) .one :: .closeCapture ::
    .single (.char ' ') .star :: fieldItems stagesClass (fieldItems priorityClass
      (fieldItems (.percent 'S') (fieldItems (.percent 'S') (fieldItems (.percent 'S') extraverItems))))

theorem compile_pkgPattern : compile pkgPattern = some ⟨false, pkgItems⟩ := by
  decide +kernel

theorem compile_categoriesPattern : compile categoriesPattern =
    some ⟨false, [.openCapture, .single .any .star, .single (.percent 'S') .one, .closeCapture,
      .single (.char ' ') .star]⟩ := by
  decide +kernel

end T2SDE
