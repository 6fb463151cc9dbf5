import T2SDE.DownloadFile

namespace T2SDE.Download

open Text Endings Disk

/-- A file that is written beside its place and moved there. -/
def Shell.put (s : Shell) (tmp dst : Str) (data : Data) : Shell :=
  (s.exec (.write tmp data)).exec (.move tmp dst)

section Shells

variable {s : Shell} {op : Op} {path f g tmp dst : Str} {data : Data}

@[simp] theorem exec_disk (s : Shell) (op : Op) : (s.exec op).disk = op.run s.disk := rfl

@[simp] theorem exec_ops (s : Shell) (op : Op) : (s.exec op).ops = s.ops ++ [op] := rfl

@[simp] theorem setError_disk (s : Shell) : s.setError.disk = s.disk := rfl

@[simp] theorem setError_ops (s : Shell) : s.setError.ops = s.ops := rfl

theorem exec_disk_of_not_touches (h : ¬op.Touches path) : (s.exec op).disk path = s.disk path :=
  run_of_not_touches h

theorem write_disk_of_ne (h : tmp ≠ path) : (s.exec (.write tmp data)).disk path = s.disk path :=
  exec_disk_of_not_touches h

theorem remove_disk_of_ne (h : tmp ≠ path) : (s.exec (.remove tmp)).disk path = s.disk path :=
  exec_disk_of_not_touches h

theorem move_disk_of_ne (h : tmp ≠ path) (h' : dst ≠ path) :
    (s.exec (.move tmp dst)).disk path = s.disk path :=
  exec_disk_of_not_touches fun htouch => htouch.elim h h'

@[simp] theorem put_disk (s : Shell) (tmp dst : Str) (data : Data) :
    (s.put tmp dst data).disk dst = some data :=
  run_write_move tmp dst data s.disk

theorem put_disk_of_ne (h : tmp ≠ path) (h' : dst ≠ path) : (s.put tmp dst data).disk path = s.disk path := by
  rw [Shell.put, move_disk_of_ne h h', write_disk_of_ne h]

theorem nonempty_congr {t : Shell} (h : t.disk path = s.disk path) : t.nonempty path = s.nonempty path := by
  rw [Shell.nonempty, Shell.nonempty, h]

theorem read_of_disk (h : s.disk path = some data) : s.read path = data := by
  rw [Shell.read, h]
  rfl

theorem nonempty_of_disk (h : s.disk path = some data) (hne : data ≠ []) : s.nonempty path = true := by
  simpa [Shell.nonempty, h] using hne

theorem markBad_disk_of_ne {cksum : Str} (h : f ≠ path) (h' : cksumErr f ≠ path) :
    (s.markBad cksum f).disk path = s.disk path := by
  unfold Shell.markBad
  split_ifs
  · rfl
  · exact move_disk_of_ne h h'

end Shells

section Paths

variable {path f : Str} {o : Options}

theorem Requested.head (h : Requested path) : path.head? = some 'd' := by
  obtain ⟨rest, rfl⟩ := h
  rfl

/-- The files of a run in `src/` are none of those that are downloaded. -/
theorem Requested.ne_src (h : Requested path) (hsrc : f.head? = some 's') : f ≠ path := by
  rintro rfl
  simpa using hsrc.symm.trans h.head

theorem ne_lockFile (h : Requested path) : lockFile f ≠ path := h.ne_src rfl

theorem ne_datFile (h : Requested path) : datFile o ≠ path := h.ne_src rfl

theorem ne_checkoutFile {protocol : Str} (h : Requested path) : checkoutFile protocol f ≠ path := h.ne_src rfl

theorem Requested.append (h : Requested f) (suffix : Str) : Requested (f ++ suffix) :=
  List.IsPrefix.trans h (List.prefix_append f suffix)

theorem ne_append_of_length {suffix : Str} (h : path.length < f.length + suffix.length) :
    f ++ suffix ≠ path := by
  rintro rfl
  simp at h

/-- The unsigned file has a name that is not much shorter than the final one. -/
theorem bz2filename_length_stripGpg (f : Str) : (bz2filename f).length ≤ (stripGpg f).length + 4 := by
  rcases bz2filename_cases f with ⟨_, hstrip, heq⟩ | ⟨_, e, new, he, _, heq⟩ | ⟨_, _, heq⟩
  · rw [heq, hstrip]
    simp
  · rw [heq]
    exact replaceEnd_length (convEnds_length he) _
  · rw [heq]
    omega

theorem cksumErr_ne (h : path.length ≤ f.length + 9) : cksumErr f ≠ path :=
  ne_append_of_length (by simp; omega)

theorem extckErr_ne (h : path.length ≤ f.length + 9) : extckErr f ≠ path :=
  ne_append_of_length (by simp; omega)

theorem incomplete_ne (h : path.length ≤ f.length + 9) : incomplete f ≠ path :=
  ne_append_of_length (by simp; omega)

end Paths

section Conversions

variable {o : Options} {w : World} {cksum bzfile gzfile : Str} {s : Shell}

/-- The branches that decompress into `src/down.$$.dat` and compress from there. -/
theorem convert_of_isConverted (h : (caseOf gzfile).isConverted = true) : convert o w cksum bzfile gzfile s =
    let dat := w.decompress (caseOf gzfile) (s.read gzfile)
    let s := s.exec (.write (datFile o) dat)
    let s := if cksumChk o w cksum gzfile dat then
        (s.exec (.write bzfile (w.compressor dat))).exec (.remove gzfile)
      else s.markBad cksum gzfile
    s.exec (.remove (datFile o)) := by
  unfold convert
  revert h
  cases caseOf gzfile <;> intro h <;> first | rfl | cases h

end Conversions

/-- A transfer with a result that is not empty. -/
def Transfer.something : Transfer → Bool
  | .failed _ => false
  | .complete data => data != []

/-- A transfer whose result has the type that its name stands for. -/
def Transfer.typed (w : World) (file : Str) : Transfer → Bool
  | .failed _ => false
  | .complete data => data != [] && w.fileMatches file data

/-- What `download_file_now` returns. -/
def succeeds (w : World) (transfer : Transfer) (url : Str) : Bool :=
  match urlKind url with
  | .manual => w.manual && transfer.something
  | .web => transfer.something
  | .checkout => w.checkout.isSome
  | .unrecognized => false

/-- The file comes to lie under the name that was asked for. -/
def delivers (w : World) (transfer : Transfer) (url gzfile bzfile : Str) : Bool :=
  match urlKind url with
  | .manual => w.manual && transfer.typed w gzfile
  | .web => transfer.typed w gzfile
  -- a checkout is packed under the final name
  | .checkout => gzfile == bzfile && w.checkout.any (· != [])
  | .unrecognized => false

/-- The location that is asked, without its marks. -/
def askedLocation (location : Str) : Str :=
  let location := plainLocation location
  if location.head? = some '?' then location.tail else location

/-- The location of a file on a mirror. -/
def mirrorUrl (mirror bzfile : Str) : Str := mirror ++ '/' :: bzfile.drop "download/mirror/".length

section Transfers

variable {o : Options} {w : World} {transfer : Transfer} {location gzfile bzfile path : Str} {s : Shell}

@[simp] theorem makeUrl_direct (url gzfile : Str) : makeUrl ('!' :: url) gzfile = url := by
  simp [makeUrl]

theorem curl_snd : (curl w transfer gzfile s).2 = transfer.something := by
  cases transfer with
  | failed left => cases left <;> rfl
  | complete data =>
    simp only [curl, Transfer.something]
    split_ifs with hdata <;> simp [hdata]

theorem downloadFileNow_snd (w : World) (transfer : Transfer) (location gzfile bzfile : Str) (s : Shell) :
    (downloadFileNow w transfer location gzfile bzfile s).2 =
    succeeds w transfer (makeUrl location gzfile) := by
  cases hkind : urlKind (makeUrl location gzfile) with
  | manual =>
    simp only [downloadFileNow, succeeds, hkind]
    cases w.manual with
    | true => rw [if_pos rfl, curl_snd, Bool.true_and]
    | false => rfl
  | web =>
    simp only [downloadFileNow, succeeds, hkind]
    exact curl_snd
  | checkout =>
    simp only [downloadFileNow, succeeds, hkind]
    cases w.checkout <;> rfl
  | unrecognized => simp only [downloadFileNow, succeeds, hkind]

/-- The files that a transfer may change. -/
theorem curl_frame (hincomplete : incomplete gzfile ≠ path) (hextck : extckErr gzfile ≠ path)
    (hne : transfer.something = true → gzfile ≠ path) :
    (curl w transfer gzfile s).1.disk path = s.disk path := by
  cases transfer with
  | failed left =>
    cases left with
    | none => rfl
    | some data => exact write_disk_of_ne hincomplete
  | complete data =>
    simp only [curl]
    split_ifs with hdata
    · exact write_disk_of_ne hincomplete
    · rw [move_disk_of_ne hincomplete (hne (by simpa [Transfer.something] using hdata)),
        write_disk_of_ne hincomplete]
    · rw [move_disk_of_ne hincomplete hextck, write_disk_of_ne hincomplete]

theorem downloadFileNow_frame (hpath : Requested path) (hincomplete : incomplete gzfile ≠ path)
    (hextck : extckErr gzfile ≠ path)
    (hne : succeeds w transfer (makeUrl location gzfile) = true →
      if urlKind (makeUrl location gzfile) = .checkout then bzfile ≠ path else gzfile ≠ path) :
    (downloadFileNow w transfer location gzfile bzfile s).1.disk path = s.disk path := by
  cases hkind : urlKind (makeUrl location gzfile) with
  | manual =>
    simp only [downloadFileNow, succeeds, hkind, reduceCtorEq, if_false] at hne ⊢
    cases hmanual : w.manual with
    | true =>
      rw [hmanual, Bool.true_and] at hne
      rw [if_pos rfl, curl_frame hincomplete hextck hne]
    | false => rfl
  | web =>
    simp only [downloadFileNow, succeeds, hkind, reduceCtorEq, if_false] at hne ⊢
    exact curl_frame hincomplete hextck hne
  | checkout =>
    simp only [downloadFileNow, succeeds, hkind, if_true] at hne ⊢
    cases hcheckout : w.checkout with
    | none => rfl
    | some data =>
      have hbz := hne (by rw [hcheckout]; rfl)
      rw [move_disk_of_ne (ne_checkoutFile hpath) hbz, write_disk_of_ne (ne_checkoutFile hpath)]
  | unrecognized => simp only [downloadFileNow, hkind]

/-- A transfer that is given up leaves no more than an incomplete file. -/
theorem downloadFileNow_frame_of_failed (hpath : Requested path) (hlen : path.length ≤ gzfile.length + 9)
    (h : succeeds w transfer (makeUrl location gzfile) = false) :
    (downloadFileNow w transfer location gzfile bzfile s).1.disk path = s.disk path := by
  refine downloadFileNow_frame hpath (incomplete_ne hlen) (extckErr_ne hlen) fun hsucceeds => ?_
  rw [h] at hsucceeds
  cases hsucceeds

end Transfers

/-- The file that another directory or a transfer leaves, and its name. -/
def fetch (o : Options) (w : World) (req : Request) (s : Shell) : Shell × Str :=
  match w.altfile with
  | some altfile => (altCopy o altfile (bz2filename req.gzfile) s, bz2filename req.gzfile)
  | none => transferFile o w (askedLocation req.location) req.gzfile (bz2filename req.gzfile) s

/-- The ways through the first part of `download_file`. -/
theorem obtain_cases (o : Options) (w : World) (req : Request) (s : Shell) :
    obtain o w req s = (s, none) ∨
    o.checkonly = true ∧ obtain o w req s = (s, some (bz2filename req.gzfile)) ∨
    obtain o w req s = (s, some req.gzfile) ∨
    obtain o w req s = if (fetch o w req s).1.nonempty (fetch o w req s).2 then
      ((fetch o w req s).1, some (fetch o w req s).2) else ((fetch o w req s).1, none) := by
  unfold obtain
  dsimp only
  by_cases hcheck : o.checkonly = true
  · rw [if_pos hcheck]
    by_cases hreal : (!s.isFile (bz2filename req.gzfile) || decide (req.cksum = []) ||
        decide (req.cksum.head? = some 'X') || decide (req.cksum = ['0'])) = true
    · rw [if_pos hreal]
      exact .inl rfl
    · rw [if_neg hreal]
      exact .inr (.inl ⟨hcheck, rfl⟩)
  · rw [if_neg hcheck]
    by_cases hraw : s.nonempty req.gzfile = true
    · rw [if_pos hraw]
      exact .inr (.inr (.inl rfl))
    · rw [if_neg hraw]
      by_cases herr : (s.nonempty (cksumErr req.gzfile) || s.nonempty (extckErr req.gzfile)) = true
      · rw [if_pos herr]
        exact .inl rfl
      · rw [if_neg herr]
        by_cases hques : (decide ((plainLocation req.location).head? = some '?') && !o.tryques) = true
        · rw [if_pos hques]
          exact .inl rfl
        · rw [if_neg hques]
          exact .inr (.inr (.inr rfl))

/-- The shell with the lock in place. -/
def Shell.locked (o : Options) (bzfile : Str) (s : Shell) : Shell :=
  s.exec (.write (lockFile bzfile) ((o.pid ++ ['\n']).map fun c => c.val.toUInt8))

/-- The ways through `download_file`. -/
theorem downloadFile_cases (o : Options) (w : World) (req : Request) (s : Shell) :
    downloadFile o w req s = (s, true) ∨
    ∃ s' found, obtain o w req (s.locked o (bz2filename req.gzfile)) = (s', found) ∧
      (found = none ∧
          downloadFile o w req s = (s'.exec (.remove (lockFile (bz2filename req.gzfile))), false) ∨
        ∃ name s'' plain, found = some name ∧ unsign w name s' = (s'', plain) ∧
          (plain = none ∧
              downloadFile o w req s = (s''.exec (.remove (lockFile (bz2filename req.gzfile))), false) ∨
            ∃ gzfile, plain = some gzfile ∧
              downloadFile o w req s = ((convert o w req.cksum (bz2filename req.gzfile) gzfile s'').exec
                (.remove (lockFile (bz2filename req.gzfile))), true))) := by
  unfold downloadFile
  dsimp only
  split_ifs
  · exact .inl rfl
  · exact .inl rfl
  · rw [← Shell.locked]
    obtain ⟨s', found⟩ := obtain o w req (s.locked o (bz2filename req.gzfile))
    refine .inr ⟨s', found, rfl, ?_⟩
    cases found with
    | none => exact .inl ⟨rfl, rfl⟩
    | some name =>
      dsimp only
      cases hunsign : unsign w name s' with
      | mk s'' plain =>
        refine .inr ⟨name, s'', plain, rfl, hunsign, ?_⟩
        cases plain with
        | none => exact .inl ⟨rfl, rfl⟩
        | some gzfile => exact .inr ⟨gzfile, rfl, rfl⟩

end T2SDE.Download
