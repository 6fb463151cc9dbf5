import T2SDE.FlLexical
import T2SDE.Lib.CString
import Mathlib.Logic.Relation

namespace T2SDE.FlWrapper

open Text PathName CString Relation

section Buffer

/-- Where the loop reads: in the caller's string, or in the buffer that it writes. -/
inductive Source
  | caller (file : Str)
  | buffer

def Source.memory : Source → Str → Str
  | .caller file, _ => strcpy file
  | .buffer, absfile => absfile

/-- A write into the buffer. There is nothing behind a write outside of it. -/
def store (absfile : Str) (p : Nat) (c : Char) : Option Str :=
  if p < pathMax then some (absfile.set p c) else none

structure Scanner where
  absfile : Str
  dst : Nat
  src : Nat

inductive Turn
  | done
  | fault
  | next (s : Scanner)

def backUp (absfile : Str) : Nat → Nat
  | 0 => 0
  | dst + 1 => if 1 < dst + 1 ∧ char absfile dst ≠ '/' then backUp absfile dst else dst + 1

def behindDots (text : Str) (src : Nat) : Nat :=
  skipOver '/' text (if char text src = nul then src else src + 1)

/-- A turn of the loop. -/
def turn (source : Source) (s : Scanner) : Turn :=
  let text := source.memory s.absfile
  if pathMax ≤ s.dst ∨ char text s.src = nul then .done
  else if char text s.src = '.' ∧ char text (s.src + 1) = '.' ∧
      (char text (s.src + 2) = '/' ∨ char text (s.src + 2) = nul) then
    .next { s with
      dst := backUp s.absfile (if 1 < s.dst then s.dst - 1 else s.dst)
      src := behindDots text (s.src + 2) }
  else if char text s.src = '.' ∧ (char text (s.src + 1) = '/' ∨ char text (s.src + 1) = nul) then
    .next { s with src := behindDots text (s.src + 1) }
  else
    let src :=
      if char text s.src = '/' ∧ char text (s.src + 1) = '/' then skipOver '/' text (s.src + 1) - 1 else s.src
    match store s.absfile s.dst (char text src) with
    | none => .fault
    | some absfile => .next ⟨absfile, s.dst + 1, src + 1⟩

def scanLoop (source : Source) : Nat → Scanner → Option Scanner
  | 0, _ => none
  | fuel + 1, s =>
    match turn source s with
    | .done => some s
    | .fault => none
    | .next s => scanLoop source fuel s

/-- The loop that removes the trailing slashes. -/
def trim (absfile : Str) : Nat → Option Str
  | 0 => some absfile
  | dst + 1 =>
    if 1 < dst ∧ char absfile dst = '/' then (store absfile dst nul).bind fun absfile => trim absfile dst
    else some absfile

def realpathIn (source : Source) (absfile : Str) : Option Str :=
  (scanLoop source (pathMax + 1) ⟨absfile, 0, 0⟩).bind fun s =>
    (store s.absfile s.dst nul).bind fun absfile => trim absfile s.dst

/-- `snprintf` into the buffer. -/
def snprintf (absfile s : Str) : Str :=
  strcpy (s.take (pathMax - 1)) ++ absfile.drop (strcpy (s.take (pathMax - 1))).length

/-- `sort_of_realpath`: the contents of the buffer that it leaves. -/
def sortOfRealpathIn (cwd file absfile : Str) : Option Str :=
  if file.head? = some '/' then realpathIn (.caller file) absfile
  else realpathIn .buffer (snprintf absfile (cwd ++ '/' :: file))

end Buffer

section View

variable {source : Source} {s : Scanner} {dst src a b tail : Str} {c : Char} {fuel : Nat}

/-- The buffer and the pointers, as what is written and what is still to be read. -/
inductive View : Source → Scanner → Str → Str → Prop
  | caller {file absfile : Str} {q : Nat} (pre dst tail src : Str) : strcpy file = pre ++ (src ++ [nul]) →
      absfile = dst ++ tail → absfile.length = pathMax → q = pre.length → nul ∉ src →
      View (.caller file) ⟨absfile, dst.length, q⟩ dst src
  | buffer {absfile : Str} {q : Nat} (dst gap src post : Str) :
  absfile = dst ++ (gap ++ (src ++ nul :: post)) →
      absfile.length = pathMax → q = dst.length + gap.length → nul ∉ src →
      View .buffer ⟨absfile, dst.length, q⟩ dst src

theorem View.free (h : View source s dst src) : nul ∉ src := by cases h <;> assumption

theorem View.dst_eq (h : View source s dst src) : s.dst = dst.length := by cases h <;> rfl

theorem View.size (h : View source s dst src) : s.absfile.length = pathMax := by cases h <;> assumption

theorem View.text (h : View source s dst src) :
    ∃ pre post, source.memory s.absfile = pre ++ (src ++ nul :: post) ∧ s.src = pre.length := by
  cases h with
  | caller pre dst tail src htext _ _ hq => exact ⟨pre, [], htext, hq⟩
  | buffer dst gap src post hmem _ hq => exact ⟨dst ++ gap, post, by simp [Source.memory, hmem], by simp [hq]⟩

theorem View.written (h : View source s dst src) : ∃ tail, s.absfile = dst ++ tail := by
  cases h with
  | caller _ _ tail _ _ hmem => exact ⟨tail, hmem⟩
  | buffer dst gap src post hmem => exact ⟨gap ++ (src ++ nul :: post), hmem⟩

/-- The reading pointer goes on. -/
theorem View.skip (h : View source s dst (a ++ src)) :
    View source { s with src := s.src + a.length } dst src := by
  have hfree : nul ∉ src := fun hmem => h.free (List.mem_append_right a hmem)
  cases h with
  | caller pre _ tail _ htext hmem hsize hq =>
    exact .caller (pre ++ a) dst tail src (by rw [htext]; simp) hmem hsize (by simp [hq]) hfree
  | buffer _ gap _ post hmem hsize hq =>
    exact .buffer dst (gap ++ a) src post (by rw [hmem]; simp) hsize (by simp [hq, Nat.add_assoc]) hfree

/-- The writing pointer goes back. -/
theorem View.back (h : View source s (a ++ b) src) : View source { s with dst := a.length } a src := by
  cases h with
  | caller pre _ tail _ htext hmem hsize hq hfree =>
    exact .caller pre a (b ++ tail) src htext (by rw [hmem]; simp) hsize hq hfree
  | buffer _ gap _ post hmem hsize hq hfree =>
    exact .buffer a (b ++ gap) src post (by rw [hmem]; simp) hsize (by simp [hq, Nat.add_assoc]) hfree

/-- A character is copied; in one buffer it is written over one that has been read. -/
theorem View.copy (h : View source s dst (c :: src)) (hroom : dst.length < pathMax) :
    ∃ absfile, store s.absfile s.dst c = some absfile ∧
    View source ⟨absfile, s.dst + 1, s.src + 1⟩ (dst ++ [c]) src := by
  have hfree : nul ∉ src := fun hmem => h.free (List.mem_cons_of_mem c hmem)
  have hlen : dst.length + 1 = (dst ++ [c]).length := by simp
  cases h with
  | @caller file absfile q pre _ tail _ htext hmem hsize hq =>
    refine ⟨absfile.set dst.length c, if_pos hroom, ?_⟩
    cases tail with
    | nil =>
      rw [hmem, List.append_nil] at hsize
      omega
    | cons d tail =>
      rw [hlen]
      refine .caller (pre ++ [c]) _ tail src (by rw [htext]; simp) ?_ (by rw [List.length_set, hsize])
        (by simp [hq]) hfree
      rw [hmem, write_at]
      simp
  | @buffer absfile q _ gap _ post hmem hsize hq =>
    refine ⟨absfile.set dst.length c, if_pos hroom, ?_⟩
    rw [hlen]
    cases gap with
    | nil =>
      refine .buffer _ [] src post ?_ (by rw [List.length_set, hsize]) (by simp [hq]) hfree
      rw [hmem, List.nil_append, List.cons_append, write_at]
      simp
    | cons g gap =>
      refine .buffer _ (gap ++ [c]) src post ?_ (by rw [List.length_set, hsize]) ?_ hfree
      · rw [hmem, List.cons_append, write_at]
        simp
      · simp only [hq, List.length_append, List.length_cons, List.length_nil]
        omega

/-- The writing pointer never passes the reading pointer. -/
theorem View.dst_le (h : View .buffer s dst src) : s.dst ≤ s.src := by
  cases h with
  | buffer _ gap _ _ _ _ hq =>
    rw [hq]
    exact Nat.le_add_right _ _

end View

section Turns

variable {source : Source} {s : Scanner} {dst src a b tail : Str} {c : Char} {fuel n : Nat}

theorem View.char (h : View source s dst (a ++ src)) :
    CString.char (source.memory s.absfile) (s.src + a.length) = src.headD nul := by
  obtain ⟨pre, post, htext, hsrc⟩ := h.text
  rw [htext, hsrc, ← List.length_append, List.append_assoc, ← List.append_assoc pre]
  cases src with
  | nil => exact char_at (pre ++ a) nul post
  | cons c src => exact char_at (pre ++ a) c (src ++ nul :: post)

/-- With something to read and room to write the loop goes on. -/
theorem View.goes (h : View source s dst (c :: src)) (hroom : dst.length < pathMax) :
    ¬(pathMax ≤ s.dst ∨ CString.char (source.memory s.absfile) s.src = nul) := by
  have hc : CString.char (source.memory s.absfile) s.src = c := View.char (a := []) h
  rw [h.dst_eq, hc]
  refine not_or.mpr ⟨Nat.not_le.mpr hroom, fun hnul => h.free ?_⟩
  rw [hnul]
  exact List.mem_cons_self

theorem View.skipOver (h : View source s dst (a ++ src)) :
    CString.skipOver '/' (source.memory s.absfile) (s.src + a.length) =
      s.src + a.length + (src.takeWhile (· == '/')).length := by
  obtain ⟨pre, post, htext, hsrc⟩ := h.text
  rw [CString.skipOver, htext, hsrc, ← List.length_append, List.append_assoc, ← List.append_assoc pre,
    List.drop_left,
    takeWhile_append_stop (by decide)]

/-- The slashes at the head of what is still to be read. -/
theorem View.slashes (h : View source s dst (a ++ src)) :
    View source { s with src := CString.skipOver '/' (source.memory s.absfile) (s.src + a.length) } dst
      (src.dropWhile (· == '/')) := by
  rw [h.skipOver]
  rw [← List.takeWhile_append_dropWhile (p := (· == '/')) (l := src), ← List.append_assoc] at h
  have hview := h.skip
  rwa [List.length_append, ← Nat.add_assoc] at hview

theorem backUp_rdropWhile (hmem : s.absfile = c :: (a ++ tail)) :
    backUp s.absfile (a.length + 1) = (a.rdropWhile (· != '/')).length + 1 := by
  induction a using List.reverseRecOn generalizing tail with
  | nil => simp [backUp]
  | append_singleton a d ih =>
    have hchar : CString.char s.absfile (a.length + 1) = d := by
      rw [hmem, List.append_assoc]
      exact char_at (c :: a) d tail
    rw [List.length_append, List.length_singleton, backUp, hchar]
    by_cases hd : d = '/'
    · rw [if_neg (fun h => h.2 hd), List.rdropWhile_concat_neg _ _ _ (by simp [hd]), List.length_append,
        List.length_singleton]
    · rw [if_pos ⟨by omega, hd⟩, List.rdropWhile_concat_pos _ _ _ (by simpa using hd)]
      exact ih (by rw [hmem, List.append_assoc])

/-- `..` takes the writing pointer to the slash in front of the last component. -/
theorem backUp_popComponent (hmem : s.absfile = dst ++ tail) :
    backUp s.absfile (if 1 < dst.length then dst.length - 1 else dst.length) = (popComponent dst).length := by
  cases dst with
  | nil => rfl
  | cons c dst =>
    rcases List.eq_nil_or_concat' dst with rfl | ⟨a, d, rfl⟩
    · exact backUp_rdropWhile (a := []) hmem
    · have hlen : (if 1 < (c :: (a ++ [d])).length then (c :: (a ++ [d])).length - 1
        else (c :: (a ++ [d])).length) =
          a.length + 1 := by simp
      rw [hlen, popComponent, List.dropLast_concat, List.length_cons]
      have hcons : s.absfile = c :: (a ++ d :: tail) := by rw [hmem]; simp
      exact backUp_rdropWhile hcons

theorem popComponent_front (dst : Str) : popComponent dst <+: dst := by
  cases dst with
  | nil => exact List.prefix_refl _
  | cons c dst =>
    rw [popComponent, List.cons_prefix_cons]
    exact ⟨rfl, (List.rdropWhile_prefix _ _).trans (List.dropLast_prefix dst)⟩

theorem View.pop (h : View source s dst src) :
    View source { s with dst := backUp s.absfile (if 1 < s.dst then s.dst - 1
    else s.dst) } (popComponent dst) src := by
  obtain ⟨tail, hmem⟩ := h.written
  obtain ⟨rest, hrest⟩ := popComponent_front dst
  rw [h.dst_eq, backUp_popComponent hmem]
  rw [← hrest] at h
  exact h.back

/-- What a turn makes of the pointers, of what is written and of what is still to be read. -/
structure Moves (source : Source) (s : Scanner) (dst src : Str) (t : Scanner) (dst' src' : Str) : Prop where
  turns : turn source s = .next t
  view : View source t dst' src'
  shorter : src'.length < src.length
  room : dst'.length + src'.length ≤ dst.length + src.length
  loop : ∀ fuel, realpathLoop (fuel + 1) dst src = realpathLoop fuel dst' src'

/-- Behind the dots, and behind the slashes that follow them. -/
theorem View.dots (h : View source s dst (a ++ src)) (hsrc : src = [] ∨ ∃ b, src = '/' :: b) :
    View source { s with src := behindDots (source.memory s.absfile) (s.src + a.length) } dst
      (src.dropWhile (· == '/')) := by
  have hchar := h.char
  rcases hsrc with rfl | ⟨b, rfl⟩
  · rw [behindDots, if_pos (by rw [hchar]; rfl)]
    exact h.slashes
  · rw [← List.singleton_append, ← List.append_assoc] at h
    have hview := h.slashes
    have hslash : CString.char (source.memory s.absfile) (s.src + a.length) = '/' := hchar
    rw [List.length_append, List.length_singleton, ← Nat.add_assoc] at hview
    rw [behindDots, if_neg (by rw [hslash]; decide)]
    exact hview

theorem View.slash (h : View source s dst (a ++ src)) (hsrc : src = [] ∨ ∃ b, src = '/' :: b) :
    CString.char (source.memory s.absfile) (s.src + a.length) = '/' ∨
      CString.char (source.memory s.absfile) (s.src + a.length) = nul := by
  have hchar := h.char
  rcases hsrc with rfl | ⟨b, rfl⟩
  · exact .inr hchar
  · exact .inl hchar

theorem length_dropWhile_le (src : Str) : (src.dropWhile (· == '/')).length ≤ src.length :=
  (List.dropWhile_suffix _).length_le

/-- `..` in front of a slash or of the end. -/
theorem moves_dotdot (h : View source s dst ('.' :: '.' :: src)) (hroom : dst.length < pathMax)
    (hsrc : src = [] ∨ ∃ b, src = '/' :: b) :
    ∃ t dst' src', Moves source s dst ('.' :: '.' :: src) t dst' src' := by
  have hlen := length_dropWhile_le src
  have hpop := (popComponent_front dst).length_le
  have h0 : CString.char (source.memory s.absfile) s.src = '.' := View.char (a := []) h
  have h1 : CString.char (source.memory s.absfile) (s.src + 1) = '.' := View.char (a := ['.']) h
  have h2 := View.slash (a := ['.', '.']) h hsrc
  have hview := View.dots (a := ['.', '.']) h hsrc
  refine ⟨_, _, _, ⟨?_, hview.pop, ?_, ?_, ?_⟩⟩
  · rw [turn]
    simp only [if_neg (h.goes hroom)]
    rw [if_pos ⟨h0, h1, h2⟩]
    rfl
  · simp only [List.length_cons]
    omega
  · simp only [List.length_cons]
    omega
  · intro fuel
    rcases hsrc with rfl | ⟨b, rfl⟩
    · rw [realpathLoop_dotdot_end hroom, List.dropWhile_nil, realpathLoop_nil]
    · rw [realpathLoop_dotdot hroom]
      rfl

/-- `.` in front of a slash or of the end. -/
theorem moves_dot (h : View source s dst ('.' :: src)) (hroom : dst.length < pathMax)
    (hsrc : src = [] ∨ ∃ b, src = '/' :: b) :
    ∃ t dst' src', Moves source s dst ('.' :: src) t dst' src' := by
  have hlen := length_dropWhile_le src
  have h0 : CString.char (source.memory s.absfile) s.src = '.' := View.char (a := []) h
  have h1 := View.slash (a := ['.']) h hsrc
  have hview := View.dots (a := ['.']) h hsrc
  have hone : CString.char (source.memory s.absfile) (s.src + 1) ≠ '.' := by
    intro heq
    rw [List.length_singleton, heq] at h1
    exact absurd h1 (by decide)
  refine ⟨_, _, _, ⟨?_, hview, ?_, ?_, ?_⟩⟩
  · rw [turn]
    simp only [if_neg (h.goes hroom)]
    rw [if_neg fun hdots => hone hdots.2.1, if_pos ⟨h0, h1⟩]
    rfl
  · simp only [List.length_cons]
    omega
  · simp only [List.length_cons]
    omega
  · intro fuel
    rcases hsrc with rfl | ⟨b, rfl⟩
    · rw [realpathLoop_dot_end hroom, List.dropWhile_nil, realpathLoop_nil]
    · rw [realpathLoop_dot hroom]
      rfl

theorem cons_takeWhile_slash (src : Str) :
    '/' :: src = src.takeWhile (· == '/') ++ '/' :: src.dropWhile (· == '/') := by
  induction src with
  | nil => rfl
  | cons c src ih =>
    by_cases hc : c = '/'
    · subst hc
      rw [List.takeWhile_cons_of_pos (by decide), List.dropWhile_cons_of_pos (by decide),
        List.cons_append, ← ih]
    · rw [List.takeWhile_cons_of_neg (by simpa using hc), List.dropWhile_cons_of_neg (by simpa using hc)]
      rfl

/-- The last of the slashes that follow each other. -/
theorem moves_slash (h : View source s dst ('/' :: src)) (hroom : dst.length < pathMax) :
    ∃ t dst' src', Moves source s dst ('/' :: src) t dst' src' := by
  have hlen := length_dropWhile_le src
  have h0 : CString.char (source.memory s.absfile) s.src = '/' := View.char (a := []) h
  have h1 : CString.char (source.memory s.absfile) (s.src + 1) = src.headD nul := View.char (a := ['/']) h
  have hskip := View.skipOver (a := ['/']) h
  have hptr : (if CString.char (source.memory s.absfile) s.src = '/' ∧
      CString.char (source.memory s.absfile) (s.src + 1) = '/' then
        CString.skipOver '/' (source.memory s.absfile) (s.src + 1) - 1 else s.src) =
      s.src + (src.takeWhile (· == '/')).length := by
    rw [h0, h1]
    cases src with
    | nil => rw [if_neg fun heq => absurd heq.2 (by decide)]; rfl
    | cons c src =>
      by_cases hc : c = '/'
      · rw [if_pos ⟨rfl, hc⟩]
        simp only [List.length_singleton] at hskip
        omega
      · rw [if_neg fun heq => hc heq.2, List.takeWhile_cons_of_neg (by simpa using hc)]
        rfl
  have hlast := h
  rw [cons_takeWhile_slash] at hlast
  have hchar := View.char (a := src.takeWhile (· == '/')) hlast
  obtain ⟨absfile, hstore, hview⟩ := hlast.skip.copy hroom
  refine ⟨_, _, _, ⟨?_, hview, ?_, ?_, fun fuel => realpathLoop_slash hroom⟩⟩
  · rw [turn]
    simp only [if_neg (h.goes hroom)]
    rw [if_neg fun hdots => absurd (h0.symm.trans hdots.1) (by decide),
      if_neg fun hdots => absurd (h0.symm.trans hdots.1) (by decide), hptr, hchar]
    simp only [List.headD_cons, hstore]
  · simp only [List.length_cons]
    omega
  · simp only [List.length_append, List.length_cons, List.length_nil]
    omega

theorem segment_eq_nil (h : segment src = []) : src = [] ∨ ∃ b, src = '/' :: b := by
  cases src with
  | nil => exact .inl rfl
  | cons c b =>
    by_cases hc : c = '/'
    · exact .inr ⟨b, by rw [hc]⟩
    · rw [segment, List.takeWhile_cons_of_pos (by simpa using hc)] at h
      cases h

theorem segment_eq_dot (h : segment src = ['.']) : ∃ b, src = '.' :: b ∧ segment b = [] := by
  cases src with
  | nil => cases h
  | cons c b =>
    by_cases hc : c = '/'
    · rw [hc, segment_slash] at h
      cases h
    · rw [segment, List.takeWhile_cons_of_pos (by simpa using hc)] at h
      obtain ⟨rfl, hb⟩ := List.cons.inj h
      exact ⟨b, rfl, hb⟩

theorem segment_of_headD (hfree : nul ∉ src) (h : src.headD nul = '/' ∨ src.headD nul = nul) :
    segment src = [] := by
  cases src with
  | nil => rfl
  | cons c b =>
    rw [List.headD_cons] at h
    rcases h with rfl | rfl
    · exact segment_slash b
    · exact absurd List.mem_cons_self hfree

/-- Any other character. -/
theorem moves_other (h : View source s dst (c :: src)) (hroom : dst.length < pathMax) (hc : c ≠ '/')
    (hdot : c = '.' → segment src ≠ [] ∧ segment src ≠ ['.']) :
    ∃ t dst' src', Moves source s dst (c :: src) t dst' src' := by
  have hfree : nul ∉ src := fun hmem => h.free (List.mem_cons_of_mem c hmem)
  have h0 : CString.char (source.memory s.absfile) s.src = c := View.char (a := []) h
  have h1 : CString.char (source.memory s.absfile) (s.src + 1) = src.headD nul := View.char (a := [c]) h
  obtain ⟨absfile, hstore, hview⟩ := h.copy hroom
  have hnone : ¬(CString.char (source.memory s.absfile) s.src = '.' ∧
      (CString.char (source.memory s.absfile) (s.src + 1) = '/' ∨
        CString.char (source.memory s.absfile) (s.src + 1) = nul)) := by
    rw [h0, h1]
    exact fun heq => (hdot heq.1).1 (segment_of_headD hfree heq.2)
  have hnotwo : ¬(CString.char (source.memory s.absfile) s.src = '.' ∧
      CString.char (source.memory s.absfile) (s.src + 1) = '.' ∧
        (CString.char (source.memory s.absfile) (s.src + 2) = '/' ∨
          CString.char (source.memory s.absfile) (s.src + 2) = nul)) := by
    rw [h0, h1]
    rintro ⟨rfl, hsecond, hthird⟩
    cases src with
    | nil => exact absurd hsecond (by decide)
    | cons d b =>
      rw [List.headD_cons] at hsecond
      rw [hsecond] at h hfree hdot
      have h2 : CString.char (source.memory s.absfile) (s.src + 2) = b.headD nul :=
        View.char (a := ['.', '.']) h
      rw [h2] at hthird
      have hb := segment_of_headD (fun hmem => hfree (List.mem_cons_of_mem _ hmem)) hthird
      refine (hdot rfl).2 ?_
      rw [segment, List.takeWhile_cons_of_pos (by decide)]
      exact congrArg (List.cons '.') hb
  refine ⟨_, _, _, ⟨?_, hview, Nat.lt_succ_self _, ?_, fun fuel => realpathLoop_copy hroom hc hdot⟩⟩
  · rw [turn]
    simp only [if_neg (h.goes hroom), if_neg hnone, if_neg hnotwo]
    rw [if_neg fun heq => hc (h0.symm.trans heq.1), h0, hstore]
  · simp only [List.length_append, List.length_cons, List.length_nil]
    omega

/-- What a turn does to what is written and what is still to be read. -/
theorem turn_view (h : View source s dst src) (hroom : dst.length + src.length < pathMax) :
    (src = [] ∧ turn source s = .done) ∨ ∃ t dst' src', Moves source s dst src t dst' src' := by
  cases src with
  | nil =>
    have h0 : CString.char (source.memory s.absfile) s.src = nul := View.char (a := []) h
    exact .inl ⟨rfl, by rw [turn]; exact if_pos (.inr h0)⟩
  | cons c src =>
    have hlt : dst.length < pathMax := by omega
    right
    by_cases hc : c = '/'
    · subst hc
      exact moves_slash h hlt
    by_cases hdot : c = '.' ∧ segment src = []
    · obtain ⟨rfl, hseg⟩ := hdot
      exact moves_dot h hlt (segment_eq_nil hseg)
    by_cases hdotdot : c = '.' ∧ segment src = ['.']
    · obtain ⟨rfl, hseg⟩ := hdotdot
      obtain ⟨b, rfl, hb⟩ := segment_eq_dot hseg
      exact moves_dotdot h hlt (segment_eq_nil hb)
    · exact moves_other h hlt hc fun heq => ⟨fun hseg => hdot ⟨heq, hseg⟩, fun hseg => hdotdot ⟨heq, hseg⟩⟩

end Turns

section Runs

variable {source : Source} {s t : Scanner} {dst src file cwd absfile absfile' : Str} {fuel : Nat}

/-- The turns of a run that do not end it. -/
def Turns (source : Source) (s t : Scanner) : Prop := turn source s = .next t

/-- A state of the loop with room for all that is still to be read. -/
def Fits (source : Source) (s : Scanner) : Prop :=
  ∃ dst src, View source s dst src ∧ dst.length + src.length < pathMax

theorem Fits.turns (h : Fits source s) (hturn : Turns source s t) : Fits source t := by
  obtain ⟨dst, src, hview, hroom⟩ := h
  rcases turn_view hview hroom with ⟨-, hdone⟩ | ⟨u, dst', src', hmoves⟩
  · rw [Turns, hdone] at hturn
    cases hturn
  · have heq : Turn.next u = .next t := hmoves.turns.symm.trans hturn
    cases heq
    exact ⟨dst', src', hmoves.view, Nat.lt_of_le_of_lt hmoves.room hroom⟩

theorem Fits.run (h : Fits source s) (hrun : ReflTransGen (Turns source) s t) : Fits source t := by
  induction hrun with
  | refl => exact h
  | tail _ hturn ih => exact ih.turns hturn

theorem Fits.no_fault (h : Fits source s) : turn source s ≠ .fault := by
  obtain ⟨dst, src, hview, hroom⟩ := h
  rcases turn_view hview hroom with ⟨-, hdone⟩ | ⟨u, dst', src', hmoves⟩
  · rw [hdone]
    exact Turn.noConfusion
  · rw [hmoves.turns]
    exact Turn.noConfusion

/-- The loop ends with all that the loop over texts writes. -/
theorem scanLoop_view (h : View source s dst src) (hroom : dst.length + src.length < pathMax)
    (hfuel : src.length ≤ fuel) :
    ∃ t, scanLoop source (fuel + 1) s = some t ∧ View source t (realpathLoop fuel dst src) [] ∧
      (realpathLoop fuel dst src).length < pathMax := by
  induction fuel generalizing s dst src with
  | zero =>
    have hnil : src = [] := List.length_eq_zero_iff.mp (by omega)
    subst hnil
    rcases turn_view h hroom with ⟨-, hdone⟩ | ⟨u, dst', src', hmoves⟩
    · refine ⟨s, ?_, h, hroom⟩
      rw [scanLoop, hdone]
    · exact absurd hmoves.shorter (Nat.not_lt_zero _)
  | succ fuel ih =>
    rcases turn_view h hroom with ⟨rfl, hdone⟩ | ⟨u, dst', src', hmoves⟩
    · rw [realpathLoop_nil]
      refine ⟨s, ?_, h, hroom⟩
      rw [scanLoop, hdone]
    · have hshort := hmoves.shorter
      have hless := hmoves.room
      rw [scanLoop, hmoves.turns, hmoves.loop]
      exact ih hmoves.view (by omega) (by omega)

theorem dropTrailing_concat (dst : Str) (c : Char) :
    dropTrailing (dst ++ [c]) = if 1 < dst.length ∧ c = '/' then dropTrailing dst else dst ++ [c] := by
  match dst with
  | [] => rfl
  | [d] => rfl
  | d :: e :: dst =>
    have hlong : 1 < (d :: e :: dst).length := by simp
    rw [List.cons_append, List.cons_append, dropTrailing]
    by_cases hc : c = '/'
    · rw [if_pos ⟨hlong, hc⟩, List.rdropWhile_concat_pos _ _ _ (by simp [hc]), dropTrailing]
    · rw [if_neg fun h => hc h.2, List.rdropWhile_concat_neg _ _ _ (by simp [hc])]

theorem trim_eq (dst tail : Str) (hroom : dst.length < pathMax)
    (hsize : (dst ++ nul :: tail).length = pathMax) :
    ∃ tail', trim (dst ++ nul :: tail) dst.length = some (dropTrailing dst ++ nul :: tail') ∧
      (dropTrailing dst ++ nul :: tail').length = pathMax := by
  induction dst using List.reverseRecOn generalizing tail with
  | nil => exact ⟨tail, rfl, hsize⟩
  | append_singleton dst c ih =>
    have hmem : dst ++ [c] ++ nul :: tail = dst ++ c :: nul :: tail := by simp
    rw [dropTrailing_concat, hmem, List.length_append, List.length_singleton, trim, char_at]
    rw [hmem] at hsize
    rw [List.length_append, List.length_singleton] at hroom
    split_ifs with h
    · rw [store, if_pos (by omega), Option.bind_some, write_at]
      exact ih (nul :: tail) (by omega) (by simpa using hsize)
    · refine ⟨tail, ?_, ?_⟩
      · simp
      · simpa using hsize

theorem scanLoop_mono {more : Nat} (h : scanLoop source fuel s = some t) (hle : fuel ≤ more) :
    scanLoop source more s = some t := by
  induction fuel generalizing s more with
  | zero => cases h
  | succ fuel ih =>
    obtain ⟨more, rfl⟩ : ∃ m, more = m + 1 := ⟨more - 1, by omega⟩
    rw [scanLoop] at h ⊢
    cases hturn : turn source s with
    | done =>
      rw [hturn] at h
      exact h
    | fault =>
      rw [hturn] at h
      cases h
    | next u =>
      rw [hturn] at h
      exact ih h (by omega)

/-- A whole run: from the path to the string in the buffer. -/
theorem realpathIn_eq (h : View source ⟨absfile, 0, 0⟩ [] file) (hlen : file.length < pathMax) :
    ∃ mem, realpathIn source absfile = some mem ∧ mem.length = pathMax ∧ strAt mem 0 = sortOfRealpath file ∧
      ∃ tail, mem = sortOfRealpath file ++ nul :: tail := by
  obtain ⟨t, hloop, hview, hroom⟩ := scanLoop_view h (by simpa using hlen) (Nat.le_refl _)
  have hrun : scanLoop source (pathMax + 1) ⟨absfile, 0, 0⟩ = some t := scanLoop_mono hloop (by omega)
  obtain ⟨tail, hmem⟩ := hview.written
  have hsize := hview.size
  rw [realpathIn, hrun, Option.bind_some, hview.dst_eq, store, if_pos hroom, Option.bind_some, hmem]
  cases tail with
  | nil =>
    rw [hmem, List.append_nil] at hsize
    omega
  | cons d tail =>
    rw [write_at]
    obtain ⟨tail', htrim, hend⟩ :=
      trim_eq (realpathLoop file.length [] file) tail hroom (by rw [hmem] at hsize; simpa using hsize)
    refine ⟨_, htrim, hend, ?_, tail', rfl⟩
    exact strAt_of [] tail' fun hmem => h.free (mem_sortOfRealpath hmem)

theorem view_caller (hfree : nul ∉ file) (hsize : absfile.length = pathMax) :
    View (.caller file) ⟨absfile, 0, 0⟩ [] file :=
  .caller [] [] absfile file rfl rfl hsize rfl hfree

theorem view_buffer {path post : Str} (hfree : nul ∉ path) (hmem : absfile = path ++ nul :: post)
    (hsize : absfile.length = pathMax) : View .buffer ⟨absfile, 0, 0⟩ [] path :=
  .buffer [] [] path post hmem hsize rfl hfree

theorem view_snprintf {path : Str} (hfree : nul ∉ path) (hlen : path.length < pathMax)
    (hsize : absfile.length = pathMax) :
    View .buffer ⟨snprintf absfile path, 0, 0⟩ [] path := by
  have htake : path.take (pathMax - 1) = path := List.take_of_length_le (by omega)
  have hmem : snprintf absfile path = path ++ nul :: absfile.drop (strcpy path).length := by
    rw [snprintf, htake, strcpy]
    simp
  refine view_buffer hfree hmem ?_
  rw [snprintf, htake, strcpy, List.length_append, List.length_append, List.length_drop,
    List.length_singleton]
  omega

/-- What `sort_of_realpath` leaves it leaves as it is. -/
theorem sortOfRealpath_idem (habs : file.head? = some '/') (hlen : file.length < pathMax)
    (hshort : (sortOfRealpath file).length < pathMax) :
    sortOfRealpath (sortOfRealpath file) = sortOfRealpath file := by
  have hplain : ∀ c ∈ (scan file).result, IsPlain c := (scan_good fun c => mem_components).plain
  have hfold : ∀ cs : List Str, (∀ c ∈ cs, IsPlain c) → cs.foldl Scan.enter ⟨[], []⟩ = ⟨cs, []⟩ := by
    intro cs hcs
    induction cs using List.reverseRecOn with
    | nil => rfl
    | append_singleton cs w ih =>
      have hw := (hcs w (by simp)).2
      rw [List.foldl_append, ih fun c hc => hcs c (List.mem_append_left _ hc), List.foldl_cons,
        List.foldl_nil,
        enter_plain _ hw (not_suffix_two hw)]
      rfl
  have hagain : scan (absolute (scan file).result) = ⟨(scan file).result, []⟩ := by
    rw [scan, components_absolute fun c hc => (hplain c hc).1, hfold _ hplain]
  have heq := sortOfRealpath_eq habs hlen
  rw [sortOfRealpath_eq (head_sortOfRealpath habs) hshort, heq, hagain, Scan.result, if_pos rfl]

end Runs

section Main

variable {cwd file absfile : Str} {s : Scanner}

/-- The path that is normalised. -/
def fullPath (cwd file : Str) : Str := if file.head? = some '/' then file else cwd ++ '/' :: file

/-- Where `sort_of_realpath` starts its loop. -/
def start (cwd file absfile : Str) : Source × Scanner :=
  if file.head? = some '/' then (.caller file, ⟨absfile, 0, 0⟩)
  else (.buffer, ⟨snprintf absfile (cwd ++ '/' :: file), 0, 0⟩)

theorem view_start (hfree : nul ∉ fullPath cwd file) (hlen : (fullPath cwd file).length < pathMax)
    (hsize : absfile.length = pathMax) :
    View (start cwd file absfile).1 (start cwd file absfile).2 [] (fullPath cwd file) := by
  unfold start fullPath at *
  split_ifs at *
  · exact view_caller hfree hsize
  · exact view_snprintf hfree hlen hsize

theorem head_fullPath (hcwd : cwd.head? = some '/') : (fullPath cwd file).head? = some '/' := by
  unfold fullPath
  split_ifs with habs
  · exact habs
  · rw [List.head?_append, hcwd]
    rfl

theorem start_pointers (cwd file absfile : Str) :
    (start cwd file absfile).2 = ⟨(start cwd file absfile).2.absfile, 0, 0⟩ := by
  unfold start
  split_ifs <;> rfl

theorem sortOfRealpathIn_start (cwd file absfile : Str) :
    sortOfRealpathIn cwd file absfile =
    realpathIn (start cwd file absfile).1 (start cwd file absfile).2.absfile := by
  unfold sortOfRealpathIn start
  split_ifs <;> rfl

theorem sortOfRealpathIn_eq (hfree : nul ∉ fullPath cwd file) (hlen : (fullPath cwd file).length < pathMax)
    (hsize : absfile.length = pathMax) :
    ∃ mem, sortOfRealpathIn cwd file absfile = some mem ∧ mem.length = pathMax ∧
      strAt mem 0 = sortOfRealpath (fullPath cwd file) ∧ ∃ tail,
      mem = sortOfRealpath (fullPath cwd file) ++ nul :: tail := by
  have hview := view_start hfree hlen hsize
  rw [start_pointers] at hview
  rw [sortOfRealpathIn_start]
  exact realpathIn_eq hview hlen

/-- The writes of `sort_of_realpath` stay in its buffer, in one buffer the writing pointer stays behind the
reading pointer and the result is that of two buffers, and a second run changes nothing. -/
theorem sortOfRealpath_inPlace (cwd file absfile absfile' absfile'' : Str) (hcwd : cwd.head? = some '/')
    (hfree : nul ∉ fullPath cwd file) (hlen : (fullPath cwd file).length < pathMax)
    (hsize : absfile.length = pathMax) (hsize' : absfile'.length = pathMax)
    (hsize'' : absfile''.length = pathMax) :
    (∀ s, ReflTransGen (Turns (start cwd file absfile).1) (start cwd file absfile).2 s →
      turn (start cwd file absfile).1 s ≠ .fault ∧ (file.head? ≠ some '/' → s.dst ≤ s.src)) ∧
    ∃ mem separate again inside, sortOfRealpathIn cwd file absfile = some mem ∧
      realpathIn (.caller (fullPath cwd file)) absfile' = some separate ∧ strAt mem 0 = strAt separate 0 ∧
      sortOfRealpathIn cwd (strAt mem 0) absfile'' = some again ∧ strAt again 0 = strAt mem 0 ∧
      realpathIn .buffer mem = some inside ∧ strAt inside 0 = strAt mem 0 := by
  have hhead : (sortOfRealpath (fullPath cwd file)).head? = some '/' :=
    head_sortOfRealpath (head_fullPath hcwd)
  have hroom : ([] : Str).length + (fullPath cwd file).length < pathMax := by simpa using hlen
  refine ⟨fun s hrun => ?_, ?_⟩
  · have hfits : Fits (start cwd file absfile).1 s := Fits.run ⟨_, _, view_start hfree hlen hsize, hroom⟩ hrun
    refine ⟨hfits.no_fault, fun hrel => ?_⟩
    have hsource : (start cwd file absfile).1 = .buffer := by rw [start, if_neg hrel]
    obtain ⟨dst, src, hview, -⟩ := hfits
    rw [hsource] at hview
    exact hview.dst_le
  · obtain ⟨mem, hmem, hend, hstr, tail, htail⟩ := sortOfRealpathIn_eq hfree hlen hsize
    obtain ⟨separate, hseparate, -, htwo, -⟩ := realpathIn_eq (view_caller hfree hsize') hlen
    have hshort : (sortOfRealpath (fullPath cwd file)).length < pathMax := by
      rw [htail, List.length_append, List.length_cons] at hend
      omega
    have hidem := sortOfRealpath_idem (head_fullPath hcwd) hlen hshort
    have hclean : nul ∉ sortOfRealpath (fullPath cwd file) := fun h => hfree (mem_sortOfRealpath h)
    have hfull : fullPath cwd (sortOfRealpath (fullPath cwd file)) = sortOfRealpath (fullPath cwd file) := by
      rw [fullPath, if_pos hhead]
    have hclean' : nul ∉ fullPath cwd (sortOfRealpath (fullPath cwd file)) := by rwa [hfull]
    obtain ⟨again, hagain, -, hsame, -⟩ := sortOfRealpathIn_eq hclean' (by rwa [hfull]) hsize''
    obtain ⟨inside, hinside, -, hin, -⟩ := realpathIn_eq (view_buffer hclean htail hend) hshort
    rw [hfull, hidem] at hsame
    rw [hidem] at hin
    rw [← hstr] at hagain hsame hin
    exact ⟨mem, separate, again, inside, hmem, hseparate, hstr.trans htwo.symm, hagain, hsame, hinside, hin⟩

theorem sortOfRealpath_inPlace_lib :
    ∃ mem separate again inside,
      sortOfRealpathIn "/usr".toList "../lib//a/./..".toList (List.replicate pathMax 'x') = some mem ∧
      realpathIn (.caller (fullPath "/usr".toList "../lib//a/./..".toList)) (List.replicate pathMax 'y') =
      some separate ∧
      strAt mem 0 = strAt separate 0 ∧
      sortOfRealpathIn "/usr".toList (strAt mem 0) (List.replicate pathMax 'z') = some again ∧
      strAt again 0 = strAt mem 0 ∧
      realpathIn .buffer mem = some inside ∧ strAt inside 0 = strAt mem 0 :=
  (sortOfRealpath_inPlace "/usr".toList "../lib//a/./..".toList _ _ _ (by decide) (by decide) (by decide)
    List.length_replicate List.length_replicate List.length_replicate).2

end Main

end T2SDE.FlWrapper
