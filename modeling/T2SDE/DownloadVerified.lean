import T2SDE.Lib.Crash
import T2SDE.DownloadNames

namespace T2SDE.Download

open Text Endings Disk

/-- A checksum program and `zstdcat`. -/
structure Tools where
  sum : Str → Data → Str
  zstdcat : Data → Data

/-- A file of the repository with its checksum. -/
structure Source where
  gzfile : Str
  cksum : Str
  requested : Requested gzfile
  /-- the checksum is neither all zeros nor all `X` -/
  real : cksum.all (· == '0') = false ∧ cksum.all (· == 'X') = false

namespace Source

variable (src : Source) (tools : Tools)

def bzfile : Str := bz2filename src.gzfile

/-- The content has the checksum of the `[D]` line. -/
def Passes (data : Data) : Prop := tools.sum (cksumType src.cksum).1 data = (cksumType src.cksum).2

/-- A file is absent or empty, or it is verified, after decompression where its name is one of a zstd file. -/
def Good : Option Data → Prop
  | none => True
  | some data => data = [] ∨ src.Passes tools (if caseOf src.bzfile = .zst then tools.zstdcat data else data)

end Source

/-- One call of `download_file` for a file, and where it is interrupted: after so many commands, the
next one after so many bytes. -/
structure Attempt where
  options : Options
  world : World
  location : Str
  interrupted : Option (Nat × Nat)

namespace Attempt

variable (a : Attempt) (src : Source) (tools : Tools) (disk : Tree)

def request : Request := ⟨src.gzfile, a.location, src.cksum⟩

/-- The shell of the whole call. -/
def shell : Shell := (downloadFile a.options a.world (a.request src) (.start disk)).1

/-- What the call leaves on the disk. -/
def after : Tree :=
  match a.interrupted with
  | none => (a.shell src disk).disk
  | some (k, n) => crash (a.shell src disk).ops k n disk

/-- The programs do what they are for, or fail without pretending. -/
structure Sound : Prop where
  nocheck : a.options.nocheck = false
  sum : a.world.sum = tools.sum
  /-- the compressor leaves nothing or an archive of what it has read -/
  compressor : ∀ data, a.world.compressor data = [] ∨ tools.zstdcat (a.world.compressor data) = data
  /-- what `zstdcat` leaves of a file in the test has the checksum only if the whole of it has -/
  decompress : ∀ data, src.Passes tools (a.world.decompress .zst data) → src.Passes tools (tools.zstdcat data)

/-- The file is put under its final name only where the call goes on to test it. -/
structure Tested : Prop where
  /-- a checkout is packed under the final name: that is the one to be tested, or what is packed is good -/
  checkout : urlKind (makeUrl (askedLocation a.location) src.gzfile) = .checkout →
    src.bzfile = src.gzfile ∨ ∀ data, a.world.checkout = some data → src.Good tools (some data)
  /-- of a file with two signatures the one below is tested -/
  signed : endsWith src.bzfile ".gpg".toList = true →
    a.options.checkonly = false ∧ a.world.altfile = none ∧ useMirror a.options src.bzfile = none

/-- The call is not interrupted while it has a file under the final name that it takes away again,
nor while it writes that file. -/
def Undisturbed : Prop :=
  ∀ k n, a.interrupted = some (k, n) → Quiet src.bzfile (a.shell src disk).ops k n

end Attempt

/-- The disks that runs of the script leave, one after the other; in between other files may change. -/
inductive Reaches (src : Source) (tools : Tools) (start : Tree) : Tree → Prop
  | start : Reaches src tools start start
  | attempt {disk : Tree} (a : Attempt) (h : Reaches src tools start disk) (hsound : a.Sound src tools)
      (htested : a.Tested src tools) (hquiet : a.Undisturbed src disk) :
      Reaches src tools start (a.after src disk)
  | other {disk : Tree} (next : Tree) (h : Reaches src tools start disk)
      (hsame : next src.bzfile = disk src.bzfile) : Reaches src tools start next

/-- What is known of the final file while a call runs. -/
structure Watched (src : Source) (tools : Tools) (disk : Tree) (s : Shell) : Prop where
  traced : s.disk = runAll s.ops disk
  pending : Pending src.bzfile (src.Good tools) s.ops disk

section Watching

variable {src : Source} {tools : Tools} {disk : Tree} {s : Shell} {op : Op} {data : Data}

theorem Watched.start (h : src.Good tools (disk src.bzfile)) : Watched src tools disk (.start disk) where
  traced := rfl
  pending := .nil h

theorem Watched.traced_exec (h : Watched src tools disk s) (op : Op) :
    (s.exec op).disk = runAll (s.exec op).ops disk := by
  rw [exec_disk, exec_ops, runAll_snoc, h.traced]

theorem Watched.other (h : Watched src tools disk s) (hne : ¬op.Touches src.bzfile) :
    Watched src tools disk (s.exec op) where
  traced := h.traced_exec op
  pending := h.pending.other hne

theorem Watched.touch (h : Watched src tools disk s) (hgood : src.Good tools (s.disk src.bzfile)) (op : Op) :
    Watched src tools disk (s.exec op) where
  traced := h.traced_exec op
  pending := h.pending.touch (h.traced ▸ hgood) op

theorem Watched.takeAway (h : Watched src tools disk s) (htake : op.TakesAway src.bzfile) :
    Watched src tools disk (s.exec op) where
  traced := h.traced_exec op
  pending := h.pending.takeAway htake trivial

theorem Watched.setError (h : Watched src tools disk s) : Watched src tools disk s.setError :=
  ⟨h.traced, h.pending⟩

/-- The final file is watched and good. -/
def Settled (src : Source) (tools : Tools) (disk : Tree) (s : Shell) : Prop :=
  Watched src tools disk s ∧ src.Good tools (s.disk src.bzfile)

theorem Settled.other (h : Settled src tools disk s) (hne : ¬op.Touches src.bzfile) :
    Settled src tools disk (s.exec op) :=
  ⟨h.1.other hne, by rw [exec_disk_of_not_touches hne]; exact h.2⟩

theorem Settled.touch (h : Settled src tools disk s) (op : Op) : Watched src tools disk (s.exec op) :=
  h.1.touch h.2 op

theorem Watched.settle (h : Watched src tools disk s) (htake : op.TakesAway src.bzfile) :
    Settled src tools disk (s.exec op) := by
  refine ⟨h.takeAway htake, ?_⟩
  rw [exec_disk, run_of_takesAway htake]
  trivial

/-- A call that ends with a good file has had none at any moment at which it was not exposed. -/
theorem Settled.after {a : Attempt} (h : Settled src tools disk (a.shell src disk))
    (hquiet : a.Undisturbed src disk) :
    src.Good tools (a.after src disk src.bzfile) := by
  unfold Attempt.after
  cases hint : a.interrupted with
  | none => exact h.2
  | some p =>
    obtain ⟨k, n⟩ := p
    exact h.1.pending.crash (h.1.traced ▸ h.2) (.inl rfl) (hquiet k n hint)

end Watching

section Transfers

variable {src : Source} {tools : Tools} {disk : Tree} {s : Shell} {w : World} {transfer : Transfer}
  {location gzfile : Str} {o : Options}

theorem Source.bz_requested (src : Source) : Requested src.bzfile := bz2filename_requested src.requested

theorem curl_watched (hincomplete : incomplete gzfile ≠ src.bzfile) (h : Settled src tools disk s) :
    Watched src tools disk (curl w transfer gzfile s).1 := by
  cases transfer with
  | failed left =>
    cases left with
    | none => exact h.1
    | some data => exact h.1.other hincomplete
  | complete data =>
    have hwritten : Settled src tools disk (s.exec (.write (incomplete gzfile) data)) := h.other hincomplete
    simp only [curl]
    split_ifs
    · exact hwritten.1
    · exact hwritten.touch _
    · exact hwritten.touch _

theorem downloadFileNow_watched (hincomplete : incomplete gzfile ≠ src.bzfile)
    (h : Settled src tools disk s) :
    Watched src tools disk (downloadFileNow w transfer location gzfile src.bzfile s).1 := by
  cases hkind : urlKind (makeUrl location gzfile) with
  | manual =>
    simp only [downloadFileNow, hkind]
    cases w.manual with
    | true => exact curl_watched hincomplete h
    | false => exact h.1
  | web =>
    simp only [downloadFileNow, hkind]
    exact curl_watched hincomplete h
  | checkout =>
    simp only [downloadFileNow, hkind]
    cases w.checkout with
    | none => exact h.1
    | some data =>
      have hpacked : Settled src tools disk
          (s.exec (.write (checkoutFile (protocolOf (makeUrl location gzfile)) src.bzfile) data)) :=
        h.other (ne_checkoutFile src.bz_requested)
      exact hpacked.touch _
  | unrecognized =>
    simp only [downloadFileNow, hkind]
    exact h.1

/-- A transfer that is given up leaves the final file as it is. -/
theorem downloadFileNow_settled_of_failed (hlen : src.bzfile.length ≤ gzfile.length + 9)
    (h : Settled src tools disk s)
    (hfailed : (downloadFileNow w transfer location gzfile src.bzfile s).2 = false) :
    Settled src tools disk (downloadFileNow w transfer location gzfile src.bzfile s).1 := by
  refine ⟨downloadFileNow_watched (incomplete_ne hlen) h, ?_⟩
  rw [downloadFileNow_snd] at hfailed
  rw [downloadFileNow_frame_of_failed src.bz_requested hlen hfailed]
  exact h.2

/-- The original location brings the requested file, and a checkout none that is not to be tested. -/
theorem downloadFileNow_settled (h : Settled src tools disk s) (hne : src.bzfile ≠ src.gzfile)
    (hcheckout : urlKind (makeUrl location src.gzfile) = .checkout →
      ∀ data, w.checkout = some data → src.Good tools (some data)) :
    Settled src tools disk (downloadFileNow w transfer location src.gzfile src.bzfile s).1 := by
  have hlen : src.bzfile.length ≤ src.gzfile.length + 9 := (bz2filename_length src.gzfile).trans (by omega)
  refine ⟨downloadFileNow_watched (incomplete_ne hlen) h, ?_⟩
  by_cases hkind : urlKind (makeUrl location src.gzfile) = .checkout
  · simp only [downloadFileNow, hkind]
    cases hdata : w.checkout with
    | none => exact h.2
    | some data =>
      have hput := put_disk s (checkoutFile (protocolOf (makeUrl location src.gzfile)) src.bzfile)
        src.bzfile data
      rw [Shell.put] at hput
      rw [hput]
      exact hcheckout hkind data hdata
  · rw [downloadFileNow_frame src.bz_requested (incomplete_ne hlen) (extckErr_ne hlen) fun _ => by
      rw [if_neg hkind]
      exact hne.symm]
    exact h.2

/-- The file that a transfer leaves is the final one, or the final one is good. -/
theorem transferFile_watched (h : Settled src tools disk s)
    (hcheckout : urlKind (makeUrl location src.gzfile) = .checkout →
      src.bzfile = src.gzfile ∨ ∀ data, w.checkout = some data → src.Good tools (some data)) :
    Watched src tools disk (transferFile o w location src.gzfile src.bzfile s).1 ∧
      ((transferFile o w location src.gzfile src.bzfile s).2 = src.bzfile ∧
          ((transferFile o w location src.gzfile src.bzfile s).2 = src.gzfile ∨
            useMirror o src.bzfile ≠ none) ∨
        (transferFile o w location src.gzfile src.bzfile s).2 = src.gzfile ∧
          Settled src tools disk (transferFile o w location src.gzfile src.bzfile s).1) := by
  have hlen : src.bzfile.length ≤ src.gzfile.length + 9 := (bz2filename_length src.gzfile).trans (by omega)
  have horigin {t : Shell} (ht : Settled src tools disk t) :
      Watched src tools disk (downloadFileNow w w.fromOrigin location src.gzfile src.bzfile t).1 ∧
        (src.gzfile = src.bzfile ∨ Settled src tools disk
          (downloadFileNow w w.fromOrigin location src.gzfile src.bzfile t).1) := by
    refine ⟨downloadFileNow_watched (incomplete_ne hlen) ht, ?_⟩
    by_cases hsame : src.bzfile = src.gzfile
    · exact .inl hsame.symm
    · exact .inr (downloadFileNow_settled ht hsame fun hkind => (hcheckout hkind).resolve_left hsame)
  cases hmirror : useMirror o src.bzfile with
  | none =>
    simp only [transferFile, hmirror]
    obtain ⟨hwatched, hsame | hsettled⟩ := horigin h
    · exact ⟨hwatched, .inl ⟨hsame, .inl trivial⟩⟩
    · exact ⟨hwatched, .inr ⟨trivial, hsettled⟩⟩
  | some mirror =>
    simp only [transferFile, hmirror]
    split_ifs with hfirst hsecond
    · exact ⟨downloadFileNow_watched (incomplete_ne (by omega)) h, .inl ⟨rfl, .inr (by simp)⟩⟩
    all_goals
      have hfailed := downloadFileNow_settled_of_failed (by omega) h (Bool.eq_false_iff.mpr hfirst)
      obtain ⟨hwatched, hsame | hsettled⟩ := horigin hfailed
    · exact ⟨hwatched, .inl ⟨hsame, .inl rfl⟩⟩
    · exact ⟨hwatched, .inr ⟨rfl, hsettled⟩⟩
    · exact ⟨hwatched.setError, .inl ⟨hsame, .inl rfl⟩⟩
    · exact ⟨hwatched.setError, .inr ⟨rfl, hsettled.1.setError, hsettled.2⟩⟩

end Transfers

section Calls

variable {src : Source} {tools : Tools} {disk : Tree} {s : Shell} {a : Attempt} {name : Str}

theorem Source.good_of_nonempty (h : s.nonempty src.bzfile = false) : src.Good tools (s.disk src.bzfile) := by
  cases hdisk : s.disk src.bzfile with
  | none => trivial
  | some data =>
    rw [Shell.nonempty, hdisk] at h
    exact .inl (by simpa using h)

/-- The call goes on with the final file, which has no signature, or with the requested one beside a
good final file. -/
def Ready (src : Source) (tools : Tools) (disk : Tree) (s : Shell) (name : Str) : Prop :=
  Watched src tools disk s ∧ (name = src.bzfile ∧ endsWith name ".gpg".toList = false ∨
    name = src.gzfile ∧ Settled src tools disk s)

theorem Attempt.Tested.plain (h : a.Tested src tools) (hsome : a.options.checkonly = true ∨
    a.world.altfile ≠ none ∨ useMirror a.options src.bzfile ≠ none) :
    endsWith src.bzfile ".gpg".toList = false := by
  by_contra hgpg
  obtain ⟨hcheck, halt, hmirror⟩ := h.signed (by simpa using hgpg)
  rcases hsome with h | h | h
  · rw [hcheck] at h
    cases h
  · exact h halt
  · exact h hmirror

theorem fetch_ready (htested : a.Tested src tools) (h : Settled src tools disk s) :
    Ready src tools disk (fetch a.options a.world (a.request src) s).1
      (fetch a.options a.world (a.request src) s).2 := by
  unfold fetch
  cases halt : a.world.altfile with
  | some altfile =>
    refine ⟨?_, .inl ⟨rfl, htested.plain (.inr (.inl (by simp [halt])))⟩⟩
    dsimp only [Attempt.request]
    unfold altCopy
    cases a.options.altcopy with
    | link => exact h.touch _
    | copy =>
      dsimp only
      split_ifs
      · exact h.touch _
      · exact h.1
    | move => exact h.touch _
  | none =>
    obtain ⟨hwatched, ⟨hbz, hname⟩ | ⟨hgz, hsettled⟩⟩ :=
      transferFile_watched (o := a.options) (w := a.world) h htested.checkout
    · refine ⟨hwatched, .inl ⟨hbz, ?_⟩⟩
      rcases hname with hgz | hmirror
      · exact hgz ▸ endsWith_gpg_of_final (hbz.symm.trans hgz)
      · exact hbz ▸ htested.plain (.inr (.inr hmirror))
    · exact ⟨hwatched, .inr ⟨hgz, hsettled⟩⟩

/-- What a call has got when it comes to the test. -/
theorem obtain_ready (htested : a.Tested src tools) (h : Settled src tools disk s) {s' : Shell}
    {found : Option Str}
    (hobtain : obtain a.options a.world (a.request src) s = (s', found)) :
    (found = none → Settled src tools disk s') ∧ ∀ name,
    found = some name → Ready src tools disk s' name := by
  have hstop {t : Shell} (ht : Settled src tools disk t) (heq : (t, (none : Option Str)) = (s', found)) :
      (found = none → Settled src tools disk s') ∧ ∀ name,
        found = some name → Ready src tools disk s' name := by
    obtain ⟨rfl, rfl⟩ := Prod.mk.inj heq
    refine ⟨fun _ => ht, fun _ hname => ?_⟩
    cases hname
  have hgo {t : Shell} {name : Str} (ht : Ready src tools disk t name) (heq : (t, some name) = (s', found)) :
      (found = none → Settled src tools disk s') ∧ ∀ name,
        found = some name → Ready src tools disk s' name := by
    obtain ⟨rfl, rfl⟩ := Prod.mk.inj heq
    refine ⟨fun hnone => ?_, fun _ hname => ?_⟩
    · cases hnone
    · cases hname
      exact ht
  rcases obtain_cases a.options a.world (a.request src) s with heq | ⟨hcheck, heq⟩ | heq | heq
  · exact hstop h (heq ▸ hobtain)
  · exact hgo ⟨h.1, .inl ⟨rfl, htested.plain (.inl hcheck)⟩⟩ (heq ▸ hobtain)
  · exact hgo ⟨h.1, .inr ⟨rfl, h⟩⟩ (heq ▸ hobtain)
  · have hready := fetch_ready htested h
    rw [heq] at hobtain
    split_ifs at hobtain with hnonempty
    · exact hgo hready hobtain
    · obtain ⟨hwatched, ⟨hname, _⟩ | ⟨_, hsettled⟩⟩ := hready
      · rw [hname] at hnonempty
        exact hstop ⟨hwatched, Source.good_of_nonempty (by simpa using hnonempty)⟩ hobtain
      · exact hstop hsettled hobtain

/-- The removal of a signature puts a file in the place of a good one. -/
theorem unsign_ready {w : World} (h : Ready src tools disk s name) {s' : Shell} {found : Option Str}
    (hunsign : unsign w name s = (s', found)) :
    (found = none → Settled src tools disk s') ∧ ∀ gzfile, found = some gzfile → Watched src tools disk s' ∧
      (gzfile = src.bzfile ∨ gzfile ≠ src.bzfile ∧ gzfile = stripGpg src.gzfile ∧
      Settled src tools disk s') := by
  obtain ⟨hwatched, ⟨hname, hplain⟩ | ⟨rfl, hsettled⟩⟩ := h
  · simp only [unsign, hplain, Bool.false_eq_true, if_false] at hunsign
    obtain ⟨rfl, rfl⟩ := Prod.mk.inj hunsign
    refine ⟨fun hnone => ?_, fun _ hgz => ?_⟩
    · cases hnone
    · cases hgz
      exact ⟨hwatched, .inl hname⟩
  · have hdone {t : Shell} (hwatched : Watched src tools disk t)
        (ht : stripGpg src.gzfile ≠ src.bzfile → Settled src tools disk t)
        (heq : (t, some (stripGpg src.gzfile)) = (s', found)) :
        (found = none → Settled src tools disk s') ∧ ∀ gzfile,
          found = some gzfile → Watched src tools disk s' ∧
          (gzfile = src.bzfile ∨ gzfile ≠ src.bzfile ∧ gzfile = stripGpg src.gzfile ∧
            Settled src tools disk s') := by
      obtain ⟨rfl, rfl⟩ := Prod.mk.inj heq
      refine ⟨fun hnone => ?_, fun gzfile hgz => ?_⟩
      · cases hnone
      · cases hgz
        by_cases hsame : stripGpg src.gzfile = src.bzfile
        · exact ⟨hwatched, .inl hsame⟩
        · exact ⟨hwatched, .inr ⟨hsame, rfl, ht hsame⟩⟩
    cases hgpg : endsWith src.gzfile ".gpg".toList with
    | false =>
      simp only [unsign, hgpg, Bool.false_eq_true, if_false] at hunsign
      refine hdone hsettled.1 (fun _ => hsettled) ?_
      rwa [stripGpg_of_not hgpg]
    | true =>
      have hkeep (hkept : (if s.isFile (stripGpg src.gzfile) then (s, some (stripGpg src.gzfile))
        else (s, none)) =
          (s', found)) : (found = none → Settled src tools disk s') ∧ ∀ gzfile, found = some gzfile →
            Watched src tools disk s' ∧ (gzfile = src.bzfile ∨ gzfile ≠ src.bzfile ∧
              gzfile = stripGpg src.gzfile ∧
              Settled src tools disk s') := by
        split_ifs at hkept
        · exact hdone hsettled.1 (fun _ => hsettled) hkept
        · obtain ⟨rfl, rfl⟩ := Prod.mk.inj hkept
          refine ⟨fun _ => hsettled, fun gzfile hgz => ?_⟩
          cases hgz
      cases hwrite : w.unsigned with
      | none =>
        simp only [unsign, hgpg, hwrite, if_true] at hunsign
        exact hkeep hunsign
      | some data =>
        cases hfile : s.isFile src.gzfile with
        | false =>
          simp only [unsign, hgpg, hwrite, hfile, if_true, Bool.false_eq_true, if_false] at hunsign
          exact hkeep hunsign
        | true =>
          have hplain : (s.exec (.write (stripGpg src.gzfile) data)).isFile (stripGpg src.gzfile) = true := by
            simp [Shell.isFile]
          simp only [unsign, hgpg, hwrite, hfile, hplain, if_true] at hunsign
          have hfree (hne : stripGpg src.gzfile ≠ src.bzfile) :
              ¬(Op.write (stripGpg src.gzfile) data).Touches src.bzfile := hne
          exact hdone (hsettled.touch _) (fun hne => hsettled.other (hfree hne)) hunsign

theorem Attempt.Sound.cksumChk_iff (h : a.Sound src tools) (origfile : Str) (data : Data) :
    cksumChk a.options a.world src.cksum origfile data = true ↔ src.Passes tools data := by
  have hne : src.cksum ≠ [] := by
    intro hnil
    have := src.real.1
    rw [hnil] at this
    cases this
  simp only [cksumChk, h.nocheck, if_neg hne, src.real.1, src.real.2, h.sum, Bool.false_or, beq_iff_eq,
    Source.Passes]

theorem markBad_eq (src : Source) (s : Shell) (origfile : Str) :
    s.markBad src.cksum origfile = s.exec (.move origfile (cksumErr origfile)) := by
  have hne : src.cksum ≠ [] := by
    intro hnil
    have := src.real.1
    rw [hnil] at this
    cases this
  rw [Shell.markBad, if_neg hne]

/-- A final file that fails the test is taken away. -/
theorem markBad_settled (h : Watched src tools disk s) :
    Settled src tools disk (s.markBad src.cksum src.bzfile) := by
  rw [markBad_eq]
  exact h.settle ⟨rfl, cksumErr_ne (by omega)⟩

theorem markBad_settled_of_ne {gzfile : Str} (h : Settled src tools disk s) (hne : gzfile ≠ src.bzfile)
    (hlen : src.bzfile.length ≤ gzfile.length + 9) : Settled src tools disk (s.markBad src.cksum gzfile) := by
  rw [markBad_eq]
  exact h.other fun htouch => htouch.elim hne (cksumErr_ne hlen)

/-- The test of a file that lies under the final name already. -/
theorem convert_settled_of_final (hsound : a.Sound src tools) (h : Watched src tools disk s) :
    Settled src tools disk (convert a.options a.world src.cksum src.bzfile src.bzfile s) := by
  have hgood (hpass : src.Passes tools (if caseOf src.bzfile = .zst then tools.zstdcat (s.read src.bzfile)
      else s.read src.bzfile)) : src.Good tools (s.disk src.bzfile) := by
    cases hdisk : s.disk src.bzfile with
    | none => trivial
    | some data =>
      rw [read_of_disk hdisk] at hpass
      exact .inr hpass
  have hconv := caseOf_bz2filename src.requested
  rw [← Source.bzfile] at hconv
  cases hcase : caseOf src.bzfile with
  | tar =>
    simp only [convert, hcase, if_true]
    split_ifs with hchk
    · have hsettled : Settled src tools disk s :=
        ⟨h, hgood (by rw [hcase]; exact (hsound.cksumChk_iff _ _).mp hchk)⟩
      -- the emptied archive is removed again
      exact (hsettled.touch _).settle rfl
    · exact markBad_settled h
  | zst =>
    have hdat : Watched src tools disk (s.exec (.write (datFile a.options)
        (a.world.decompress .zst (s.read src.bzfile)))) := h.other (ne_datFile src.bz_requested)
    simp only [convert, hcase, hsound.nocheck, Bool.false_eq_true, if_false]
    refine Settled.other ?_ (ne_datFile src.bz_requested)
    split_ifs with hchk
    · refine ⟨hdat, ?_⟩
      rw [write_disk_of_ne (ne_datFile src.bz_requested)]
      refine hgood ?_
      rw [hcase, if_pos rfl]
      exact hsound.decompress _ ((hsound.cksumChk_iff _ _).mp hchk)
    · exact ⟨(markBad_settled hdat).1.setError, (markBad_settled hdat).2⟩
  | raw =>
    simp only [convert, hcase]
    split_ifs with hchk
    · exact ⟨h, hgood (by rw [hcase]; exact (hsound.cksumChk_iff _ _).mp hchk)⟩
    · exact ⟨(markBad_settled h).1.setError, (markBad_settled h).2⟩
  | _ => rw [hcase] at hconv; cases hconv

/-- A compressor that works leaves a good file, one that fails an empty one. -/
theorem compressed_good (hsound : a.Sound src tools) (hzst : caseOf src.bzfile = .zst) {data : Data}
    (hpass : src.Passes tools data) : src.Good tools (some (a.world.compressor data)) := by
  rcases hsound.compressor data with hempty | hback
  · exact .inl hempty
  · refine .inr ?_
    rw [if_pos hzst, hback]
    exact hpass

/-- The conversion of another file into the final one. -/
theorem convert_settled_of_ne (hsound : a.Sound src tools) (h : Settled src tools disk s)
    (hne : stripGpg src.gzfile ≠ src.bzfile) :
    Settled src tools disk (convert a.options a.world src.cksum src.bzfile (stripGpg src.gzfile) s) := by
  have hlen : src.bzfile.length ≤ (stripGpg src.gzfile).length + 9 :=
    (bz2filename_length_stripGpg src.gzfile).trans (by omega)
  have hput {t : Shell} (ht : Settled src tools disk t) {data : Data} (hzst : caseOf src.bzfile = .zst)
      (hpass : src.Passes tools data) : Settled src tools disk
        ((t.exec (.write src.bzfile (a.world.compressor data))).exec (.remove (stripGpg src.gzfile))) := by
    refine Settled.other ⟨ht.touch _, ?_⟩ hne
    rw [exec_disk, run_write]
    exact compressed_good hsound hzst hpass
  cases hcase : caseOf (stripGpg src.gzfile) with
  | tar =>
    rcases bz2filename_of_tar src.requested hcase with ⟨_, hzst⟩ | ⟨_, hbz⟩
    · simp only [convert, hcase, if_neg hne]
      split_ifs with hchk
      · exact hput h hzst ((hsound.cksumChk_iff _ _).mp hchk)
      · exact markBad_settled_of_ne h hne hlen
    · exact absurd hbz.symm hne
  | zst => exact absurd (bz2filename_of_zst src.requested hcase).symm hne
  | raw =>
    simp only [convert, hcase]
    split_ifs with hchk
    · exact h
    · have hmark := markBad_settled_of_ne h hne hlen
      exact ⟨hmark.1.setError, hmark.2⟩
  | _ =>
    have hconv : (caseOf (stripGpg src.gzfile)).isConverted = true := by rw [hcase]; rfl
    rw [convert_of_isConverted hconv]
    dsimp only
    refine Settled.other ?_ (ne_datFile src.bz_requested)
    have hdat : Settled src tools disk (s.exec (.write (datFile a.options)
        (a.world.decompress (caseOf (stripGpg src.gzfile)) (s.read (stripGpg src.gzfile))))) :=
      h.other (ne_datFile src.bz_requested)
    split_ifs with hchk
    · exact hput hdat (bz2filename_of_converted src.requested hconv) ((hsound.cksumChk_iff _ _).mp hchk)
    · exact markBad_settled_of_ne hdat hne hlen

/-- A call ends with a good final file if it begins with one. -/
theorem shell_settled (hsound : a.Sound src tools) (htested : a.Tested src tools)
    (h : src.Good tools (disk src.bzfile)) : Settled src tools disk (a.shell src disk) := by
  have hstart : Settled src tools disk (.start disk) := ⟨.start h, h⟩
  have hfree : ¬(Op.remove (lockFile src.bzfile)).Touches src.bzfile := ne_lockFile src.bz_requested
  have hlocked : Settled src tools disk (Shell.locked a.options src.bzfile (.start disk)) :=
    hstart.other (ne_lockFile src.bz_requested)
  rcases downloadFile_cases a.options a.world (a.request src) (.start disk) with
    heq | ⟨s₁, found, hobtain, ⟨rfl, heq⟩ | ⟨name, s₂, plain, rfl, hunsign, ⟨rfl, heq⟩ | ⟨gzfile, rfl, heq⟩⟩⟩
  · rw [Attempt.shell, heq]
    exact hstart
  · rw [Attempt.shell, heq]
    exact ((obtain_ready htested hlocked hobtain).1 rfl).other hfree
  · rw [Attempt.shell, heq]
    exact ((unsign_ready ((obtain_ready htested hlocked hobtain).2 name rfl) hunsign).1 rfl).other hfree
  · rw [Attempt.shell, heq]
    obtain ⟨hwatched, rfl | ⟨hne, rfl, hsettled⟩⟩ :=
      (unsign_ready ((obtain_ready htested hlocked hobtain).2 name rfl) hunsign).2 gzfile rfl
    · exact (convert_settled_of_final hsound hwatched).other hfree
    · exact (convert_settled_of_ne hsound hsettled hne).other hfree

end Calls

section Runs

variable {src : Source} {tools : Tools} {start disk : Tree}

/-- What one call preserves, interrupted or not. -/
theorem after_good {a : Attempt} (hsound : a.Sound src tools) (htested : a.Tested src tools)
    (hquiet : a.Undisturbed src disk) (h : src.Good tools (disk src.bzfile)) :
    src.Good tools (a.after src disk src.bzfile) :=
  (shell_settled hsound htested h).after hquiet

/-- However often the script runs for a file, what lies under the final name is verified. -/
theorem final_file_verified (hstart : src.Good tools (start src.bzfile)) (h : Reaches src tools start disk) :
    src.Good tools (disk src.bzfile) := by
  induction h with
  | start => exact hstart
  | attempt a _ hsound htested hquiet ih => exact after_good hsound htested hquiet ih
  | other next _ hsame ih => rwa [hsame]

def sampleTools : Tools where
  sum := (sampleWorld []).sum
  zstdcat := (sampleWorld []).decompress .zst

def sampleSource : Source where
  gzfile := (sampleRequest "foo-1.0.tar.zst").gzfile
  cksum := sampleSum
  requested := Requested.append (f := "download/".toList) (List.prefix_refl _) _
  real := ⟨by decide, by decide⟩

/-- A call that a server with one file answers. -/
def sampleAttempt (served : Data) (interrupted : Option (Nat × Nat)) : Attempt where
  options := {}
  world := sampleWorld served
  location := (sampleRequest "foo-1.0.tar.zst").location
  interrupted := interrupted

theorem sample_sound (served : Data) (interrupted : Option (Nat × Nat)) :
    (sampleAttempt served interrupted).Sound sampleSource sampleTools where
  nocheck := rfl
  sum := rfl
  compressor data := .inr (sampleWorld_lossless [] data)
  decompress _ h := h

theorem sample_tested (served : Data) (interrupted : Option (Nat × Nat)) :
    (sampleAttempt served interrupted).Tested sampleSource sampleTools where
  checkout hkind :=
    absurd hkind (show ¬urlKind (makeUrl (askedLocation (sampleRequest "foo-1.0.tar.zst").location)
    sampleSource.gzfile) = .checkout by decide +kernel)
  signed hgpg := absurd hgpg (show ¬endsWith sampleSource.bzfile ".gpg".toList = true by decide +kernel)

/-- The disk after an interrupted transfer, once its lock has been removed. -/
def sampleDisk : Tree := Function.update
  ((sampleAttempt sampleZstd (some (1, 5))).after sampleSource fun _ => none)
    (lockFile sampleSource.bzfile) none

/-- A transfer that is interrupted and one that is not. -/
theorem final_file_verified_sample :
    (sampleAttempt sampleZstd none).after sampleSource sampleDisk sampleSource.bzfile = some sampleZstd ∧
    sampleSource.Good sampleTools
      ((sampleAttempt sampleZstd none).after sampleSource sampleDisk sampleSource.bzfile) := by
  have hempty : sampleSource.Good sampleTools ((fun _ => none : Tree) sampleSource.bzfile) := trivial
  have hquiet : (sampleAttempt sampleZstd (some (1, 5))).Undisturbed sampleSource fun _ => none := by
    intro k n hint
    cases hint
    have hop : ((sampleAttempt sampleZstd (some (1, 5))).shell sampleSource fun _ => none).ops[1]? =
        some (.write (incomplete sampleSource.gzfile) sampleZstd) := by decide +kernel
    have hne : incomplete sampleSource.gzfile ≠ sampleSource.bzfile := by decide +kernel
    simp only [Quiet, hop, if_neg hne]
    decide +kernel
  have hfirst : Reaches sampleSource sampleTools (fun _ => none)
      ((sampleAttempt sampleZstd (some (1, 5))).after sampleSource fun _ => none) :=
    .attempt _ .start (sample_sound _ _) (sample_tested _ _) hquiet
  have hunlocked : Reaches sampleSource sampleTools (fun _ => none) sampleDisk :=
    .other _ hfirst (Function.update_of_ne (ne_lockFile sampleSource.bz_requested).symm _ _)
  have hsecond : Reaches sampleSource sampleTools (fun _ => none)
      ((sampleAttempt sampleZstd none).after sampleSource sampleDisk) :=
    .attempt _ hunlocked (sample_sound _ _) (sample_tested _ _) (fun k n hint => by cases hint)
  exact ⟨by decide +kernel, final_file_verified hempty hsecond⟩

/-- A broken server copy stays under the final name if the script is interrupted before the test. -/
theorem interrupted_unverified : sampleSource.Good sampleTools none ∧
    ¬sampleSource.Good sampleTools ((sampleAttempt [1, 2, 3] (some (3, 0))).after sampleSource (fun _ => none)
      sampleSource.bzfile) := by
  have hleft : (sampleAttempt [1, 2, 3] (some (3, 0))).after sampleSource (fun _ =>
    none) sampleSource.bzfile =
      some [1, 2, 3] := by decide +kernel
  have hfail : ¬sampleSource.Passes sampleTools (if caseOf sampleSource.bzfile = .zst then
      sampleTools.zstdcat [1, 2, 3] else [1, 2, 3]) := by
    unfold Source.Passes
    decide +kernel
  refine ⟨trivial, ?_⟩
  rw [hleft]
  rintro (h | h)
  · cases h
  · exact hfail h

end Runs

end T2SDE.Download
