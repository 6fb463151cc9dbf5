import T2SDE.Lib.Snprintf

namespace T2SDE.Rc

open Text CString Snprintf

/-- An argument is a string of C. -/
structure Arg where
  text : Str
  free : nul ∉ text

section Functions

def sizeofCommand : Nat := 1024

def initd : Str := "/etc/rc.d/init.d/".toList

def endMark : Str := "; /bin/echo -ne '\x04'".toList

/-- The service and what follows it, with `use_btee`, unless the help message is displayed. -/
def options (argv : List Arg) : Option (Arg × List Arg × Bool) :=
  let nobtee := argv.head?.any fun a => a.text == "--nobtee".toList
  match if nobtee then argv.tail else argv with
  | [] => none
  | [_] => none
  | service :: first :: rest => some (service, first :: rest, !nobtee && first.text != "help".toList)

/-- What `snprintf` is given, call by call. -/
def pieces (service : Arg) (args : List Arg) (use_btee : Bool) : List Str :=
  ((if '/' ∈ service.text then [] else initd) ++ service.text) :: args.map (fun a => ' ' :: a.text) ++
    [" </dev/null 2>&1".toList ++ if use_btee then endMark else []]

/-- The command and what has been written for it, if the shell is to be executed. -/
def command (mem : Mem) (argv : List Arg) : Option Buffer :=
  (options argv).map fun (service, args, use_btee) =>
    printAll sizeofCommand ⟨mem, 0, []⟩ (pieces service args use_btee)

/-- The complete command: the path of the service, all arguments, the redirection and the mark. -/
def complete (argv : List Arg) : Option Str :=
  (options argv).map fun (service, args, use_btee) => (pieces service args use_btee).flatten

end Functions

/-- Nothing is written outside the buffer, and the shell is executed with the complete command. -/
def Fits (mem : Mem) (argv : List Arg) : Prop :=
  ∀ b ∈ command mem argv, ∀ text ∈ complete argv, b.Inside sizeofCommand ∧ Holds b.mem text

section Pieces

theorem initd_free : nul ∉ initd := by decide +kernel

theorem redirection_free (use_btee : Bool) : nul ∉ " </dev/null 2>&1".toList ++ if use_btee then endMark
    else [] := by
  cases use_btee with
  | true => decide +kernel
  | false => decide +kernel

theorem pieces_free (service : Arg) (args : List Arg) (use_btee : Bool) :
    nul ∉ (pieces service args use_btee).flatten := by
  intro hmem
  obtain ⟨piece, hpiece, hnul⟩ := List.mem_flatten.mp hmem
  rw [pieces, List.mem_append, List.mem_cons, List.mem_singleton] at hpiece
  rcases hpiece with (rfl | hpiece) | rfl
  · rcases List.mem_append.mp hnul with hnul | hnul
    · split at hnul
      · cases hnul
      · exact initd_free hnul
    · exact service.free hnul
  · obtain ⟨a, -, rfl⟩ := List.mem_map.mp hpiece
    exact a.free ((List.mem_cons.mp hnul).resolve_left (by decide))
  · exact redirection_free use_btee hnul

theorem fits_options {mem : Mem} {argv args : List Arg} {service : Arg} {use_btee : Bool}
    (h : options argv = some (service, args, use_btee)) :
    Fits mem argv ↔ (pieces service args use_btee).flatten.length < sizeofCommand := by
  have hiff := printAll_iff (List.cons_ne_nil _ _) (show 0 < sizeofCommand by decide) (by decide)
    (pieces_free service args use_btee) mem
  have hcommand :
    command mem argv = some (printAll sizeofCommand ⟨mem, 0, []⟩ (pieces service args use_btee)) := by
    rw [command, h]
    rfl
  have hcomplete : complete argv = some (pieces service args use_btee).flatten := by
    rw [complete, h]
    rfl
  rw [Fits, hcommand, hcomplete]
  constructor
  · exact fun hfits => hiff.mp (hfits _ rfl _ rfl)
  · intro hlength b hb text htext
    cases hb
    cases htext
    exact hiff.mpr hlength

/-- The command is built and executed as it should be exactly if it is shorter than the buffer. -/
theorem command_fits_iff (mem : Mem) (argv : List Arg) :
    Fits mem argv ↔ ∀ text ∈ complete argv, text.length < sizeofCommand := by
  cases h : options argv with
  | none =>
    refine iff_of_true (fun b hb => ?_) fun text htext => ?_
    · rw [command, h] at hb
      cases hb
    · rw [complete, h] at htext
      cases htext
  | some o =>
    obtain ⟨service, args, use_btee⟩ := o
    rw [fits_options h, complete, h]
    constructor
    · intro hlength text htext
      cases htext
      exact hlength
    · exact fun hlength => hlength _ rfl

/-- A service with a long name. -/
def longService (n : Nat) : Arg :=
  ⟨List.replicate n 'a', fun h => absurd (List.eq_of_mem_replicate h) (by decide)⟩

def startArg : Arg := ⟨"start".toList, by decide +kernel⟩

theorem options_long (n : Nat) :
    options [longService (n + 1), startArg] = some (longService (n + 1), [startArg], true) := rfl

theorem length_long (n : Nat) : (longService n).text.length = n := List.length_replicate

theorem length_pieces (service : Arg) (args : List Arg) (use_btee : Bool) :
    service.text.length ≤ (pieces service args use_btee).flatten.length := by
  rw [pieces, List.cons_append, List.flatten_cons, List.length_append, List.length_append]
  omega

theorem long_command : ¬∀ (mem : Mem) (argv : List Arg), Fits mem argv := by
  intro h
  have hlength := (fits_options (options_long sizeofCommand)).mp (h (fun _ => nul) _)
  have hservice := length_pieces (longService (sizeofCommand + 1)) [startArg] true
  rw [length_long] at hservice
  omega

end Pieces

end T2SDE.Rc
