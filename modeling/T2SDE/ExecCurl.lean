import T2SDE.Lib.Text

namespace T2SDE.ExecCurl

open Text

section Program

structure CurlWrapper where
  connectTimeout : Int
  maxTime : Int
  filename : Str

/-- What is appended to the parameters for a download: a URL, or a part of what it names. -/
inductive Download
  | whole (url : Str)
  | part (url : Str) (start stop : Nat)

def Download.url : Download → Str
  | whole url | part url _ _ => url

def timeout (option : String) (value : Int) : Str :=
  if value > 0 then option.toList ++ digits value.toNat else []

def genParamString (w : CurlWrapper) : Str :=
  "curl -A T2-updater --disable-epsv --location -f -o ".toList ++ w.filename ++
    timeout " --connect-timeout " w.connectTimeout ++ timeout " --max-time " w.maxTime

def getCommand (w : CurlWrapper) : Download → Str
  | .whole url => genParamString w ++ ' ' :: url
  | .part url start stop =>
    genParamString w ++ (" -r ".toList ++ digits start ++ '-' :: digits stop ++ ' ' :: url)

/-- `std::string::find` from a position on. -/
def find (cmd : Str) (c : Char) (pos : Nat) : Option Nat :=
  ((cmd.drop pos).findIdx? (· == c)).map (· + pos)

/-- `std::string::replace` of so many characters from a position on. -/
def replace (cmd : Str) (pos count : Nat) (by' : Str) : Str := cmd.take pos ++ by' ++ cmd.drop (pos + count)

/-- The loop of `ExecCurl`. -/
def escapeLoop : Nat → Str → Option Nat → Option Str
  | _, cmd, none => some cmd
  | 0, _, some _ => none
  | fuel + 1, cmd, some it =>
    escapeLoop fuel (replace cmd it it ['\\']) (find (replace cmd it it ['\\']) '&' (it + 2))

def execCurl (fuel : Nat) (cmd : Str) : Option Str := escapeLoop fuel cmd (find cmd '&' 0)

end Program

/-- The loop ends, and there is one backslash more in front of each ampersand. -/
def Escapes (cmd : Str) : Prop :=
  ∃ fuel, execCurl fuel cmd = some (cmd.flatMap fun c => if c = '&' then ['\\', '&'] else [c])

section Loop

variable {cmd result : Str} {c : Char} {pos it fuel : Nat}

theorem find_bounds (h : find cmd c pos = some it) : pos ≤ it ∧ it < cmd.length := by
  obtain ⟨i, hi, rfl⟩ := Option.map_eq_some_iff.mp h
  have hlt := (List.findIdx?_eq_some_iff_getElem.mp hi).1
  rw [List.length_drop] at hlt
  exact ⟨Nat.le_add_left pos i, by omega⟩

theorem find_none : find cmd c 0 = none ↔ c ∉ cmd := by
  rw [find, List.drop_zero, Option.map_eq_none_iff, List.findIdx?_eq_none_iff]
  constructor
  · intro h hc
    simpa using h c hc
  · intro h d hd
    simpa using fun heq : d = c => h (heq ▸ hd)

theorem length_replace (h : it < cmd.length) :
    (replace cmd it it ['\\']).length ≤ if it = 0 then cmd.length + 1 else cmd.length := by
  simp only [replace, List.length_append, List.length_take, List.length_drop, List.length_singleton]
  split_ifs <;> omega

/-- Each round goes on two characters and makes the text longer by one at most. -/
theorem escapeLoop_ends (hfuel : cmd.length ≤ it + fuel) (hit : it < cmd.length) :
    ∃ result, escapeLoop fuel cmd (some it) = some result := by
  induction fuel generalizing cmd it with
  | zero => omega
  | succ fuel ih =>
    rw [escapeLoop]
    cases hfind : find (replace cmd it it ['\\']) '&' (it + 2) with
    | none => exact ⟨_, by rw [escapeLoop]⟩
    | some next =>
      obtain ⟨hnext, hlt⟩ := find_bounds hfind
      have hlength := length_replace hit
      split_ifs at hlength
      · exact ih (by omega) hlt
      · exact ih (by omega) hlt

theorem execCurl_ends (cmd : Str) : ∃ result, execCurl cmd.length cmd = some result := by
  cases hfind : find cmd '&' 0 with
  | none => exact ⟨cmd, by rw [execCurl, hfind, escapeLoop]⟩
  | some it =>
    rw [execCurl, hfind]
    exact escapeLoop_ends (by omega) (find_bounds hfind).2

theorem escapeLoop_length (hpos : 0 < it) (hit : it < cmd.length)
    (h : escapeLoop fuel cmd (some it) = some result) : result.length ≤ cmd.length := by
  induction fuel generalizing cmd it with
  | zero => cases h
  | succ fuel ih =>
    rw [escapeLoop] at h
    have hlength := length_replace hit
    rw [if_neg (Nat.ne_of_gt hpos)] at hlength
    cases hfind : find (replace cmd it it ['\\']) '&' (it + 2) with
    | none =>
      rw [hfind, escapeLoop] at h
      rw [← Option.some.inj h]
      omega
    | some next =>
      rw [hfind] at h
      obtain ⟨hnext, hlt⟩ := find_bounds hfind
      have hrest := ih (by omega) hlt h
      omega

/-- What is to come out is longer than the command. -/
theorem length_escaped (cmd : Str) :
    (cmd.flatMap fun c => if c = '&' then ['\\', '&'] else [c]).length = cmd.length + cmd.count '&' := by
  induction cmd with
  | nil => rfl
  | cons c cmd ih =>
    rw [List.flatMap_cons, List.length_append, ih, List.length_cons, List.count_cons]
    by_cases hc : c = '&'
    · subst hc
      simp only [if_true, List.length_cons, List.length_nil, beq_self_eq_true]
      omega
    · have hbeq : (c == '&') = false := by simpa using hc
      rw [if_neg hc, hbeq, List.length_singleton, if_neg Bool.false_ne_true]
      omega

theorem escapes_iff (hhead : cmd.head? ≠ some '&') : Escapes cmd ↔ '&' ∉ cmd := by
  constructor
  · rintro ⟨fuel, h⟩ hmem
    have hcount : 0 < cmd.count '&' := List.count_pos_iff.mpr hmem
    cases hfind : find cmd '&' 0 with
    | none => exact find_none.mp hfind hmem
    | some it =>
      have hpos : 0 < it := by
        rcases Nat.eq_zero_or_pos it with rfl | hpos
        · obtain ⟨i, hi, hzero⟩ := Option.map_eq_some_iff.mp hfind
          obtain rfl : i = 0 := by omega
          obtain ⟨hlt, hbeq, -⟩ := List.findIdx?_eq_some_iff_getElem.mp hi
          cases cmd with
          | nil => exact absurd hlt (Nat.not_lt_zero _)
          | cons c cmd =>
            rw [beq_iff_eq] at hbeq
            exact absurd (congrArg some hbeq) hhead
        · exact hpos
      rw [execCurl, hfind] at h
      have hshort := escapeLoop_length hpos (find_bounds hfind).2 h
      rw [length_escaped] at hshort
      omega
  · intro hfree
    refine ⟨0, ?_⟩
    have hsame : (cmd.flatMap fun c => if c = '&' then ['\\', '&'] else [c]) = cmd := by
      have hplain : ∀ c ∈ cmd, (if c = '&' then ['\\', '&'] else [c]) = [c] :=
        fun c hc => if_neg fun heq : c = '&' => hfree (heq ▸ hc)
      rw [List.flatMap_congr hplain]
      exact List.flatMap_singleton' cmd
    rw [execCurl, find_none.mpr hfree, escapeLoop, hsame]

end Loop

section Commands

variable {w : CurlWrapper} {d : Download}

theorem digits_plain (n : Nat) : '&' ∉ digits n := fun h => absurd (digit_of_mem h) (by decide)

theorem mem_timeout {option : String} (h : option.toList.contains '&' = false) (value : Int) :
    '&' ∉ timeout option value := by
  have hoption : '&' ∉ option.toList := by simpa using h
  rw [timeout]
  split_ifs
  · simp [hoption, digits_plain]
  · simp

theorem genParamString_eq (w : CurlWrapper) : genParamString w =
    "curl -A T2-updater --disable-epsv --location -f -o ".toList ++ w.filename ++
      timeout " --connect-timeout " w.connectTimeout ++ timeout " --max-time " w.maxTime := rfl

theorem mem_genParamString : '&' ∈ genParamString w ↔ '&' ∈ w.filename := by
  have hstart : '&' ∉ "curl -A T2-updater --disable-epsv --location -f -o ".toList := by
    rw [String.toList_ofList]
    decide
  have hconnect : '&' ∉ timeout " --connect-timeout " w.connectTimeout := mem_timeout rfl _
  have hmax : '&' ∉ timeout " --max-time " w.maxTime := mem_timeout rfl _
  simp only [genParamString_eq, List.mem_append, hstart, hconnect, hmax, false_or, or_false]

theorem mem_getCommand : '&' ∈ getCommand w d ↔ '&' ∈ w.filename ∨ '&' ∈ d.url := by
  cases d with
  | whole url => simp [getCommand, mem_genParamString, Download.url]
  | part url start stop =>
    have hrange : '&' ∉ " -r ".toList := by
      rw [String.toList_ofList]
      decide
    simp only [getCommand, List.mem_append, List.mem_cons, mem_genParamString, hrange, digits_plain,
      Download.url]
    simp

theorem head_getCommand : (getCommand w d).head? ≠ some '&' := by
  have hhead : ∀ s, (genParamString w ++ s).head? = some 'c' := by
    intro s
    rw [genParamString_eq, String.toList_ofList]
    rfl
  cases d with
  | whole url =>
    rw [getCommand, hhead]
    decide
  | part url start stop =>
    rw [getCommand, hhead]
    decide

/-- The command is escaped as it should be if there is nothing to escape. -/
theorem escapes_command_iff (w : CurlWrapper) (d : Download) :
    Escapes (getCommand w d) ↔ '&' ∉ w.filename ∧ '&' ∉ d.url := by
  rw [escapes_iff head_getCommand, mem_getCommand, not_or]

/-- The URL is cut to pieces. -/
theorem ampersand_lost : execCurl 100 (getCommand ⟨20, -1, ['f']⟩ (.whole "http://h/?a=1&b=2".toList)) =
      some "curl -A T2-updater --disable-epsv --location -f -o f --connect-timeout 20 http://h/?a=1\\".toList ∧
    ¬Escapes (getCommand ⟨20, -1, ['f']⟩ (.whole "http://h/?a=1&b=2".toList)) := by
  refine ⟨?_, ?_⟩
  · simp only [getCommand, genParamString_eq]
    repeat rw [String.toList_ofList]
    rfl
  · intro h
    have hfree := (escapes_iff head_getCommand).mp h
    rw [mem_getCommand, not_or] at hfree
    refine hfree.2 ?_
    rw [Download.url, String.toList_ofList]
    decide

end Commands

end T2SDE.ExecCurl
