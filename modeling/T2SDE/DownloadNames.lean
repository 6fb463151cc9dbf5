import T2SDE.DownloadShell

namespace T2SDE.Download

open Text Endings Disk

/-- The compressions that the endings of archives stand for. -/
def archiveEnds : List (Str × Format) :=
  caseEnds.filter (fun p => p.2 != .tar) ++
    [(".bz".toList, .bz2), (".tbz".toList, .bz2), (".tZ".toList, .z), (".txz".toList, .xz)]

/-- The content of an archive without its compression. -/
def plainContent (w : World) (name : Str) (data : Data) : Data :=
  match ofEnds archiveEnds .raw name with
  | .raw => data
  | format => w.decompress format data

/-- Nothing keeps `download_file` from a transfer. -/
structure Attempted (o : Options) (w : World) (req : Request) (s : Shell) : Prop where
  raw : s.nonempty req.gzfile = false
  cksumErr : s.nonempty (cksumErr req.gzfile) = false
  extckErr : s.nonempty (extckErr req.gzfile) = false
  allowed : (plainLocation req.location).head? = some '?' → o.tryques = true
  altfile : w.altfile = none

/-- The ways in which a server copy comes to lie under a name: it has been left there, or it is
transferred from the mirror, from its original location, or packed from a checkout. -/
inductive Arrives (o : Options) (w : World) (req : Request) (s : Shell) : Str → Data → Prop
  | left {data : Data} (h : s.disk req.gzfile = some data) : Arrives o w req s req.gzfile data
  | mirror {data : Data} {mirror : Str} (h : Attempted o w req s)
      (hmirror : useMirror o (bz2filename req.gzfile) = some mirror)
      (hweb : urlKind (mirrorUrl mirror (bz2filename req.gzfile)) = .web)
      (hdata : w.fromMirror = .complete data)
      (hmatch : w.fileMatches (bz2filename req.gzfile) data = true)
      (hplain : endsWith (bz2filename req.gzfile) ".gpg".toList = false) :
      Arrives o w req s (bz2filename req.gzfile) data
  | origin {data : Data} (h : Attempted o w req s)
      (hmirror : useMirror o (bz2filename req.gzfile) = none ∨
        (∃ left, w.fromMirror = .failed left) ∧ w.checkout = none)
      (hweb : urlKind (makeUrl (askedLocation req.location) req.gzfile) = .web ∨
        urlKind (makeUrl (askedLocation req.location) req.gzfile) = .manual ∧ w.manual = true)
      (hdata : w.fromOrigin = .complete data)
      (hmatch : w.fileMatches req.gzfile data = true) : Arrives o w req s req.gzfile data
  | checkout {data : Data} (h : Attempted o w req s)
      (hmirror : useMirror o (bz2filename req.gzfile) = none)
      (hkind : urlKind (makeUrl (askedLocation req.location) req.gzfile) = .checkout)
      (hdata : w.checkout = some data)
      (hname : bz2filename req.gzfile = req.gzfile) : Arrives o w req s req.gzfile data

/-- A call that gets a server copy with the right checksum. -/
structure Served (o : Options) (w : World) (req : Request) (s : Shell) (name : Str) (data payload : Data) :
    Prop where
  requested : Requested req.gzfile
  absent : s.nonempty (bz2filename req.gzfile) = false
  unlocked : s.nonempty (lockFile (bz2filename req.gzfile)) = false
  checkonly : o.checkonly = false
  arrives : Arrives o w req s name data
  something : data ≠ []
  unsigned : if endsWith name ".gpg".toList then w.unsigned = some payload else payload = data
  content : payload ≠ []
  cksum : cksumChk o w req.cksum (stripGpg name) (plainContent w (stripGpg name) payload) = true
  compressed : ∀ x, w.compressor x ≠ []
  lossless : ∀ x, w.decompress .zst (w.compressor x) = x

/-- The archive is there with a content. -/
def Archived (w : World) (disk : Tree) (name : Str) (content : Data) : Prop :=
  ∃ data, disk name = some data ∧ data ≠ [] ∧ plainContent w name data = content

/-- The files that the commands of the conversion read, each with the one it writes. -/
def conversionSteps (o : Options) (bzfile gzfile : Str) : List (Str × Str) :=
  match caseOf gzfile with
  | .tar => [(gzfile, bzfile)]
  | .zst => [(bzfile, datFile o)]
  | .raw => []
  | _ => [(gzfile, datFile o), (datFile o, bzfile)]

/-- How the table fits to those of the two rule lists. -/
structure ArchivesFit : Prop where
  keys : (archiveEnds.map Prod.fst).Nodup
  known : archiveEnds.all (fun p => knownEnds.contains p.1) = true
  cases : archiveEnds.all (fun p => caseEnds.contains p && p.2 != .tar || missedEnds.contains p.1) = true
  notTar : archiveEnds.all (fun p => p.1 != ".tar".toList) = true
  notRaw : caseEnds.all (fun p => p.2 != .raw) = true

theorem archivesFit : ArchivesFit where
  keys := by decide +kernel
  known := by decide +kernel
  cases := by decide +kernel
  notTar := by decide +kernel
  notRaw := by decide +kernel

section Contents

variable {g : Str}

theorem archiveEnds_known {p : Str × Format} (hp : p ∈ archiveEnds) : p.1 ∈ knownEnds :=
  List.contains_iff_mem.mp (List.all_eq_true.mp (ArchivesFit.known archivesFit) p hp)

theorem archiveEnds_cases {p : Str × Format} (hp : p ∈ archiveEnds) :
    p ∈ caseEnds ∧ p.2 ≠ .tar ∨ p.1 ∈ missedEnds := by
  simpa using List.all_eq_true.mp (ArchivesFit.cases archivesFit) p hp

/-- For the endings that a branch of `download_file` tests, the content is what that branch gets. -/
theorem plainContent_of_case (w : World) (data : Data) (hg : Requested g) (htar : caseOf g ≠ .tar)
    (hraw : caseOf g ≠ .raw) :
    plainContent w g data = w.decompress (caseOf g) data := by
  rcases caseOf_cases hg.ne_tbz with ⟨h, _⟩ | ⟨e, he, hends⟩
  · exact absurd h hraw
  · have hmem : (e, caseOf g) ∈ archiveEnds :=
      List.mem_append_left _ (List.mem_filter.mpr ⟨he, by simpa using htar⟩)
    rw [plainContent, ofEnds_of_ends (TablesFit.unrelated tablesFit) (ArchivesFit.keys archivesFit)
      (fun _ => archiveEnds_known) hmem hends]
    cases h : caseOf g <;> first | rfl | exact absurd h hraw

theorem plainContent_of_tar (w : World) (data : Data) (hg : Requested g) (h : caseOf g = .tar) :
    plainContent w g data = data := by
  have hends := (caseOf_tar hg).mp h
  rw [plainContent, ofEnds_of_none]
  intro p hp
  refine endsWith_known hends (caseEnds_known tar_caseEnds) (archiveEnds_known hp) ?_
  intro heq
  simpa [← heq] using List.all_eq_true.mp (ArchivesFit.notTar archivesFit) p hp

theorem plainContent_of_raw (w : World) (data : Data) (hg : Requested g) (h : caseOf g = .raw)
    (hmissed : ∀ e ∈ missedEnds, endsWith g e = false) : plainContent w g data = data := by
  rcases caseOf_cases hg.ne_tbz with ⟨_, hnone⟩ | ⟨e, he, _⟩
  · rw [plainContent, ofEnds_of_none]
    intro p hp
    rcases archiveEnds_cases hp with ⟨hcase, _⟩ | hmiss
    · exact hnone p hcase
    · exact hmissed _ hmiss
  · rw [h] at he
    simpa using List.all_eq_true.mp (ArchivesFit.notRaw archivesFit) _ he

end Contents

section Arrivals

variable {o : Options} {w : World} {req : Request} {s : Shell} {transfer : Transfer} {data payload : Data}
  {location gzfile bzfile name path : Str}

theorem curl_complete (hdata : data ≠ []) (hmatch : w.fileMatches gzfile data = true) :
    curl w (.complete data) gzfile s = (s.put (incomplete gzfile) gzfile data, true) := by
  simp only [curl, hdata, if_false, hmatch, if_true]
  rfl

theorem downloadFileNow_web (h : urlKind (makeUrl location gzfile) = .web ∨
    urlKind (makeUrl location gzfile) = .manual ∧ w.manual = true) :
    downloadFileNow w transfer location gzfile bzfile s = curl w transfer gzfile s := by
  rcases h with h | ⟨h, hmanual⟩
  · simp only [downloadFileNow, h]
  · simp only [downloadFileNow, h, hmanual, if_true]

theorem obtain_of_attempted (h : Attempted o w req s) (hcheck : o.checkonly = false) : obtain o w req s =
    let got := transferFile o w (askedLocation req.location) req.gzfile (bz2filename req.gzfile) s
    if got.1.nonempty got.2 then (got.1, some got.2) else (got.1, none) := by
  have hques : (decide ((plainLocation req.location).head? = some '?') && !o.tryques) = false := by
    by_cases hhead : (plainLocation req.location).head? = some '?'
    · simp [h.allowed hhead]
    · simp [hhead]
  simp only [obtain, hcheck, h.raw, h.cksumErr, h.extckErr, h.altfile, hques, Bool.or_false,
    Bool.false_eq_true, if_false]
  rfl

theorem downloadFileNow_complete (hdata : data ≠ []) (hmatch : w.fileMatches gzfile data = true)
    (h : urlKind (makeUrl location gzfile) = .web ∨ urlKind (makeUrl location gzfile) = .manual ∧
    w.manual = true) :
    downloadFileNow w (.complete data) location gzfile bzfile s =
      (s.put (incomplete gzfile) gzfile data, true) := by
  rw [downloadFileNow_web h, curl_complete hdata hmatch]

/-- A server copy that is transferred is put under its name, and before that nothing else changes. -/
theorem transferFile_of_origin (hdata : data ≠ []) (hmatch : w.fileMatches gzfile data = true)
    (hpath : Requested bzfile) (hbz : bzfile.length ≤ gzfile.length + 4)
    (hmirror : useMirror o bzfile = none ∨ (∃ left, w.fromMirror = .failed left) ∧ w.checkout = none)
    (hweb : urlKind (makeUrl location gzfile) = .web ∨ urlKind (makeUrl location gzfile) = .manual ∧
    w.manual = true)
    (hfrom : w.fromOrigin = .complete data) : ∃ (t : Shell) (tmp : Str),
    transferFile o w location gzfile bzfile s =
      (t.put tmp gzfile data, gzfile) ∧ tmp ≠ bzfile ∧ t.disk bzfile = s.disk bzfile := by
  cases hm : useMirror o bzfile with
  | none =>
    refine ⟨s, incomplete gzfile, ?_, incomplete_ne (by omega), rfl⟩
    simp only [transferFile, hm]
    rw [hfrom, downloadFileNow_complete hdata hmatch hweb]
  | some mirror =>
    rcases hmirror with h | ⟨⟨left, hleft⟩, hcheckout⟩
    · rw [hm] at h
      cases h
    · have hfails (url : Str) : succeeds w (.failed left) url = false := by
        unfold succeeds
        cases urlKind url <;> simp [Transfer.something, hcheckout]
      have hfirst := downloadFileNow_snd w (.failed left)
        ('!' :: mirror ++ '/' :: bzfile.drop "download/mirror/".length) bzfile bzfile s
      rw [hfails] at hfirst
      have hframe :
        (downloadFileNow w (.failed left) ('!' :: mirror ++ '/' :: bzfile.drop "download/mirror/".length)
          bzfile bzfile s).1.disk bzfile = s.disk bzfile :=
        downloadFileNow_frame_of_failed hpath (by omega) (hfails _)
      refine ⟨_, incomplete gzfile, ?_, incomplete_ne (by omega), hframe⟩
      simp only [transferFile, hm]
      rw [hleft, hfirst, hfrom, downloadFileNow_complete hdata hmatch hweb]
      rfl

/-- A server copy that arrives is what `download_file` goes on with. -/
theorem Arrives.obtain (hreq : Requested req.gzfile) (hcheck : o.checkonly = false) (hdata : data ≠ [])
    (h : Arrives o w req s name data) : ∃ s', obtain o w req s = (s', some name) ∧ s'.disk name = some data ∧
      (name ≠ bz2filename req.gzfile → s'.disk (bz2filename req.gzfile) =
      s.disk (bz2filename req.gzfile)) := by
  have hputs (t : Shell) (tmp : Str) {name : Str} (h : Attempted o w req s)
      (htransfer : transferFile o w (askedLocation req.location) req.gzfile (bz2filename req.gzfile) s =
        (t.put tmp name data, name)) : Download.obtain o w req s = (t.put tmp name data, some name) := by
    rw [obtain_of_attempted h hcheck, htransfer]
    dsimp only
    rw [nonempty_of_disk (put_disk t tmp name data) hdata, if_pos rfl]
  cases h with
  | left h =>
    have hraw : s.nonempty req.gzfile = true := nonempty_of_disk h hdata
    exact ⟨s, by simp only [Download.obtain, hcheck, hraw, Bool.false_eq_true, if_false, if_true], h, fun _ => rfl⟩
  | @mirror _ mirror h hmirror hweb hfrom hmatch =>
    refine ⟨_, hputs s (incomplete (bz2filename req.gzfile)) h ?_, put_disk _ _ _ _,
      fun hname => absurd rfl hname⟩
    simp only [transferFile, hmirror]
    rw [hfrom, downloadFileNow_complete hdata hmatch (.inl ?_)]
    · rfl
    · exact (congrArg urlKind (makeUrl_direct _ _)).trans hweb
  | origin h hmirror hweb hfrom hmatch =>
    obtain ⟨t, tmp, htransfer, htmp, hframe⟩ := transferFile_of_origin (s := s) hdata hmatch
      (bz2filename_requested hreq) (bz2filename_length req.gzfile) hmirror hweb hfrom
    exact ⟨_, hputs t tmp h htransfer, put_disk _ _ _ _, fun hname =>
      (put_disk_of_ne htmp hname).trans hframe⟩
  | checkout h hmirror hkind hfrom hname =>
    refine ⟨_, hputs s (checkoutFile (protocolOf (makeUrl (askedLocation req.location) req.gzfile))
      (bz2filename req.gzfile)) h ?_, put_disk _ _ _ _, fun hne => absurd hname.symm hne⟩
    simp only [transferFile, hmirror, downloadFileNow, hkind, hfrom]
    rw [hname]
    rfl

end Arrivals

section Served

variable {o : Options} {w : World} {req : Request} {s : Shell} {name : Str} {data payload : Data}

theorem Attempted.lock (hreq : Requested req.gzfile) (h : Attempted o w req s) (lk : Data) :
    Attempted o w req (s.exec (.write (lockFile (bz2filename req.gzfile)) lk)) where
  raw := (nonempty_congr (write_disk_of_ne (ne_lockFile hreq))).trans h.raw
  cksumErr := (nonempty_congr (write_disk_of_ne (ne_lockFile (hreq.append _)))).trans h.cksumErr
  extckErr := (nonempty_congr (write_disk_of_ne (ne_lockFile (hreq.append _)))).trans h.extckErr
  allowed := h.allowed
  altfile := h.altfile

theorem Arrives.lock (hreq : Requested req.gzfile) (h : Arrives o w req s name data) (lk : Data) :
    Arrives o w req (s.exec (.write (lockFile (bz2filename req.gzfile)) lk)) name data := by
  cases h with
  | left h => exact .left ((write_disk_of_ne (ne_lockFile hreq)).trans h)
  | mirror h hmirror hweb hdata hmatch hplain =>
    exact .mirror (h.lock hreq lk) hmirror hweb hdata hmatch hplain
  | origin h hmirror hweb hdata hmatch => exact .origin (h.lock hreq lk) hmirror hweb hdata hmatch
  | checkout h hmirror hkind hdata hname => exact .checkout (h.lock hreq lk) hmirror hkind hdata hname

theorem Arrives.name_cases (h : Arrives o w req s name data) : name = req.gzfile ∨
    name = bz2filename req.gzfile ∧ endsWith name ".gpg".toList = false := by
  cases h with
  | left h => exact .inl rfl
  | mirror _ _ _ _ _ hplain => exact .inr ⟨rfl, hplain⟩
  | origin => exact .inl rfl
  | checkout => exact .inl rfl

/-- What arrives under the final name has no signature to be removed. -/
theorem Arrives.stripGpg_final (h : Arrives o w req s name data) (hname : name = bz2filename req.gzfile) :
    stripGpg name = bz2filename req.gzfile := by
  rcases h.name_cases with heq | ⟨heq, hplain⟩
  · rw [stripGpg_of_not (endsWith_gpg_of_final (by rw [heq] at hname ⊢; exact hname.symm)), hname]
  · rw [stripGpg_of_not hplain, hname]

theorem unsign_of_disk (h : s.disk name = some data)
    (hpayload : if endsWith name ".gpg".toList then w.unsigned = some payload else payload = data) :
    ∃ s', unsign w name s = (s', some (stripGpg name)) ∧ s'.disk (stripGpg name) = some payload ∧
      ∀ path, stripGpg name ≠ path → s'.disk path = s.disk path := by
  have hfile : s.isFile name = true := by simp [Shell.isFile, h]
  cases hgpg : endsWith name ".gpg".toList with
  | true =>
    rw [hgpg, if_pos rfl] at hpayload
    refine ⟨s.exec (.write (stripGpg name) payload), ?_, run_write _ _ _, fun path hne =>
      write_disk_of_ne hne⟩
    have hplain : (s.exec (.write (stripGpg name) payload)).isFile (stripGpg name) = true := by
      simp [Shell.isFile]
    simp only [unsign, hgpg, if_true, hpayload, hfile, hplain]
  | false =>
    rw [hgpg, if_neg Bool.false_ne_true] at hpayload
    rw [stripGpg_of_not hgpg, hpayload]
    exact ⟨s, by simp only [unsign, hgpg, Bool.false_eq_true, if_false], h, fun _ _ => rfl⟩

/-- A call that gets a server copy comes to the conversion of the file that it has. -/
theorem Served.reaches_convert (h : Served o w req s name data payload) :
    ∃ s', downloadFile o w req s =
        ((convert o w req.cksum (bz2filename req.gzfile) (stripGpg name) s').exec
          (.remove (lockFile (bz2filename req.gzfile))), true) ∧
      s'.disk (stripGpg name) = some payload ∧
      (stripGpg name ≠ bz2filename req.gzfile →
        s'.disk (bz2filename req.gzfile) = s.disk (bz2filename req.gzfile)) := by
  obtain ⟨s₁, hobtain, hdisk, hframe⟩ :=
    (h.arrives.lock h.requested ((o.pid ++ ['\n']).map fun c => c.val.toUInt8)).obtain h.requested
      h.checkonly h.something
  obtain ⟨s₂, hunsign, hplain, hrest⟩ := unsign_of_disk (w := w) hdisk h.unsigned
  refine ⟨s₂, ?_, hplain, fun hne => ?_⟩
  · simp only [downloadFile, h.absent, h.unlocked, Bool.false_and, Bool.false_eq_true, if_false]
    rw [hobtain]
    simp only
    rw [hunsign]
  · rw [hrest _ hne, hframe fun hname => hne (h.arrives.stripGpg_final hname),
      write_disk_of_ne (ne_lockFile (bz2filename_requested h.requested))]

end Served

section Converted

variable {o : Options} {w : World} {cksum bzfile gzfile : Str} {s : Shell} {payload : Data}

theorem convert_disk_of_isConverted (hbz : Requested bzfile) (hne : gzfile ≠ bzfile)
    (h : (caseOf gzfile).isConverted = true) (hread : s.read gzfile = payload)
    (hchk : cksumChk o w cksum gzfile (w.decompress (caseOf gzfile) payload) = true) :
    (convert o w cksum bzfile gzfile s).disk bzfile =
      some (w.compressor (w.decompress (caseOf gzfile) payload)) := by
  rw [convert_of_isConverted h, hread]
  dsimp only
  rw [hchk, if_pos rfl, remove_disk_of_ne (ne_datFile hbz), remove_disk_of_ne hne]
  exact run_write _ _ _

theorem convert_disk_of_tar (hne : gzfile ≠ bzfile) (h : caseOf gzfile = .tar)
    (hread : s.read gzfile = payload)
    (hchk : cksumChk o w cksum gzfile payload = true) :
    (convert o w cksum bzfile gzfile s).disk bzfile = some (w.compressor payload) := by
  simp only [convert, h, hread, hchk, if_true, if_neg hne]
  rw [remove_disk_of_ne hne]
  exact run_write _ _ _

theorem convert_disk_of_zst (hbz : Requested bzfile) (h : caseOf gzfile = .zst)
    (hread : s.read bzfile = payload)
    (hchk : cksumChk o w cksum bzfile (w.decompress .zst payload) = true) :
    (convert o w cksum bzfile gzfile s).disk bzfile = s.disk bzfile := by
  simp only [convert, h, hread, hchk, if_true]
  rw [remove_disk_of_ne (ne_datFile hbz)]
  cases o.nocheck with
  | true => rfl
  | false => exact write_disk_of_ne (ne_datFile hbz)

theorem convert_disk_of_raw (h : caseOf gzfile = .raw) (hread : s.read gzfile = payload)
    (hchk : cksumChk o w cksum gzfile payload = true) :
    (convert o w cksum bzfile gzfile s).disk = s.disk := by
  simp only [convert, h, hread, hchk, if_true]

/-- The raw test changes no other file than the tested one. -/
theorem convert_raw_disk_of_ne (h : caseOf gzfile = .raw) (hne : gzfile ≠ bzfile)
    (hlen : bzfile.length ≤ gzfile.length + 4) :
    (convert o w cksum bzfile gzfile s).disk bzfile = s.disk bzfile := by
  simp only [convert, h]
  split_ifs
  · rfl
  · rw [setError_disk, markBad_disk_of_ne hne (cksumErr_ne (by omega))]

end Converted

section Agreement

variable {o : Options} {w : World} {req : Request} {s : Shell} {name : Str} {data payload : Data}

/-- The steps of a conversion that is not one of a tar ball read and write different files. -/
theorem conversionSteps_ne {bzfile gzfile : Str} (hbz : Requested bzfile) (hgz : Requested gzfile)
    (h : caseOf gzfile = .tar → gzfile ≠ bzfile) :
    ∀ step ∈ conversionSteps o bzfile gzfile, step.1 ≠ step.2 := by
  intro step hstep
  have hdat := ne_datFile (o := o) hbz
  have hdat' := ne_datFile (o := o) hgz
  unfold conversionSteps at hstep
  cases hcase : caseOf gzfile <;> rw [hcase] at hstep <;>
    simp only [List.mem_cons, List.not_mem_nil, or_false] at hstep
  case tar => exact hstep ▸ h hcase
  case zst => exact hstep ▸ hdat.symm
  all_goals
    rcases hstep with rfl | rfl
    · exact hdat'.symm
    · exact hdat

/-- After the call the archive is there, and no step of the conversion has read the file that it writes. -/
def ArchivedSafely (o : Options) (w : World) (req : Request) (s : Shell) (name : Str) (payload : Data) :
    Prop :=
  Archived w (downloadFile o w req s).1.disk (bz2filename req.gzfile)
    (plainContent w (stripGpg name) payload) ∧
    ∀ step ∈ conversionSteps o (bz2filename req.gzfile) (stripGpg name), step.1 ≠ step.2

/-- The name is not one of a signed tar ball and the file that arrives has its final name or an ending that
`download_file` knows. -/
def NameAgrees (f name : Str) : Prop :=
  endsWith f ".tar.gpg".toList = false ∧
    (name = bz2filename f ∨ ∀ e ∈ missedEnds, endsWith (stripGpg f) e = false)

instance (f name : Str) : Decidable (NameAgrees f name) := inferInstanceAs (Decidable (_ ∧ (_ ∨ _)))

theorem Served.plain_cases (h : Served o w req s name data payload) :
    stripGpg name = stripGpg req.gzfile ∨ stripGpg name = bz2filename req.gzfile := by
  rcases h.arrives.name_cases with rfl | ⟨heq, _⟩
  · exact .inl rfl
  · exact .inr (h.arrives.stripGpg_final heq)

theorem Served.plain_requested (h : Served o w req s name data payload) : Requested (stripGpg name) := by
  rcases h.plain_cases with heq | heq
  · exact heq ▸ stripGpg_requested h.requested
  · exact heq ▸ bz2filename_requested h.requested

/-- What the conversion leaves under the final name is left by the call. -/
theorem Served.final_disk (h : Served o w req s name data payload) :
    ∃ s', (downloadFile o w req s).1.disk (bz2filename req.gzfile) =
        (convert o w req.cksum (bz2filename req.gzfile) (stripGpg name) s').disk (bz2filename req.gzfile) ∧
      s'.disk (stripGpg name) = some payload ∧
      (stripGpg name ≠ bz2filename req.gzfile →
        s'.disk (bz2filename req.gzfile) = s.disk (bz2filename req.gzfile)) := by
  obtain ⟨s', hrun, hdisk, hframe⟩ := h.reaches_convert
  refine ⟨s', ?_, hdisk, hframe⟩
  rw [hrun]
  exact remove_disk_of_ne (ne_lockFile (bz2filename_requested h.requested))

/-- A file that is compressed again keeps its content. -/
theorem Served.archived_compressed (h : Served o w req s name data payload)
    (hzst : caseOf (bz2filename req.gzfile) = .zst)
    (hput : (downloadFile o w req s).1.disk (bz2filename req.gzfile) =
      some (w.compressor (plainContent w (stripGpg name) payload))) :
    Archived w (downloadFile o w req s).1.disk (bz2filename req.gzfile)
      (plainContent w (stripGpg name) payload) := by
  refine ⟨_, hput, h.compressed _, ?_⟩
  rw [plainContent_of_case _ _ (bz2filename_requested h.requested) (by rw [hzst]; decide)
    (by rw [hzst]; decide),
    hzst, h.lossless]

theorem not_missed (hreq : Requested req.gzfile) (hcase : caseOf (stripGpg req.gzfile) ≠ .raw) :
    ∀ e ∈ missedEnds, endsWith (stripGpg req.gzfile) e = false := by
  intro e he
  by_contra hends
  exact hcase (caseOf_missed (stripGpg_requested hreq) he (by simpa using hends))

theorem not_tarGpg (hreq : Requested req.gzfile) (hcase : caseOf (bz2filename req.gzfile) ≠ .tar) :
    endsWith req.gzfile ".tar.gpg".toList = false := by
  rwa [ne_eq, caseOf_bz2filename_tar hreq, Bool.not_eq_true] at hcase

theorem Served.archived_iff_of_tar (h : Served o w req s name data payload)
    (hcase : caseOf (stripGpg name) = .tar) :
    ArchivedSafely o w req s name payload ↔ NameAgrees req.gzfile name := by
  obtain ⟨s', hfinal, hdisk, _⟩ := h.final_disk
  have hchk := h.cksum
  have hcontent := plainContent_of_tar w payload h.plain_requested hcase
  rw [hcontent] at hchk
  have hconvert : endsWith req.gzfile ".tar.gpg".toList = false →
      stripGpg name = stripGpg req.gzfile ∧ caseOf (bz2filename req.gzfile) = .zst := by
    intro hends
    rcases h.plain_cases with heq | heq
    · rcases bz2filename_of_tar h.requested (heq ▸ hcase) with ⟨_, hzst⟩ | ⟨hends', _⟩
      · exact ⟨heq, hzst⟩
      · rw [hends] at hends'
        cases hends'
    · rw [heq, caseOf_bz2filename_tar h.requested, hends] at hcase
      cases hcase
  cases hends : endsWith req.gzfile ".tar.gpg".toList with
  | true =>
    -- the final name of a signed tar ball is its name without the signature
    have hsame : stripGpg name = bz2filename req.gzfile := by
      rcases h.plain_cases with heq | heq
      · rcases bz2filename_of_tar h.requested (heq ▸ hcase) with ⟨_, hzst⟩ | ⟨_, hbz⟩
        · rw [(caseOf_bz2filename_tar h.requested).mpr hends] at hzst
          cases hzst
        · rw [heq, hbz]
      · exact heq
    refine iff_of_false (fun hall => hall.2 (stripGpg name, bz2filename req.gzfile) ?_ hsame) ?_
    · simp [conversionSteps, hcase]
    · rintro ⟨hfalse, _⟩
      rw [hends] at hfalse
      cases hfalse
  | false =>
    obtain ⟨heq, hzst⟩ := hconvert hends
    have hne : stripGpg name ≠ bz2filename req.gzfile := by
      intro hsame
      rw [← hsame, hcase] at hzst
      cases hzst
    refine iff_of_true ⟨h.archived_compressed hzst ?_, conversionSteps_ne (bz2filename_requested h.requested)
      h.plain_requested fun _ => hne⟩ ⟨hends, .inr (not_missed h.requested ?_)⟩
    · rw [hfinal, convert_disk_of_tar hne hcase (read_of_disk hdisk) hchk, hcontent]
    · rw [← heq, hcase]
      decide

theorem Served.archived_iff_of_zst (h : Served o w req s name data payload)
    (hcase : caseOf (stripGpg name) = .zst) :
    ArchivedSafely o w req s name payload ↔ NameAgrees req.gzfile name := by
  obtain ⟨s', hfinal, hdisk, _⟩ := h.final_disk
  have hbz := bz2filename_requested h.requested
  have hsame : stripGpg name = bz2filename req.gzfile := by
    rcases h.plain_cases with heq | heq
    · rw [heq, bz2filename_of_zst h.requested (heq ▸ hcase)]
    · exact heq
  have hchk := h.cksum
  rw [plainContent_of_case _ _ h.plain_requested (by rw [hcase]; decide) (by rw [hcase]; decide), hcase,
    hsame] at hchk
  rw [hsame] at hcase hdisk
  have hnot : endsWith req.gzfile ".tar.gpg".toList = false := not_tarGpg h.requested (by rw [hcase]; decide)
  refine iff_of_true ⟨⟨payload, ?_, h.content, by rw [hsame]⟩,
    conversionSteps_ne hbz h.plain_requested ?_⟩ ⟨hnot, ?_⟩
  · rw [hfinal, hsame, convert_disk_of_zst hbz hcase (read_of_disk hdisk) hchk, hdisk]
  · rw [hsame, hcase]
    intro hfalse
    cases hfalse
  · rcases h.arrives.name_cases with hname | ⟨hname, _⟩
    · refine .inr (not_missed h.requested ?_)
      rw [← hname, hsame, hcase]
      decide
    · exact .inl hname

theorem Served.archived_iff_of_converted (h : Served o w req s name data payload)
    (hconv : (caseOf (stripGpg name)).isConverted = true) :
    ArchivedSafely o w req s name payload ↔ NameAgrees req.gzfile name := by
  obtain ⟨s', hfinal, hdisk, _⟩ := h.final_disk
  have hbz := bz2filename_requested h.requested
  have htar : caseOf (stripGpg name) ≠ .tar := fun hcase => by simp [hcase, Format.isConverted] at hconv
  have hraw : caseOf (stripGpg name) ≠ .raw := fun hcase => by simp [hcase, Format.isConverted] at hconv
  have hne : stripGpg name ≠ bz2filename req.gzfile := by
    intro hsame
    rw [hsame, caseOf_bz2filename h.requested] at hconv
    cases hconv
  have heq : stripGpg name = stripGpg req.gzfile := h.plain_cases.resolve_right hne
  have hzst := bz2filename_of_converted h.requested (heq ▸ hconv)
  have hcontent := plainContent_of_case w payload h.plain_requested htar hraw
  have hchk := h.cksum
  rw [hcontent] at hchk
  refine iff_of_true ⟨h.archived_compressed hzst ?_, conversionSteps_ne hbz h.plain_requested fun _ => hne⟩
    ⟨not_tarGpg h.requested (by rw [hzst]; decide), .inr (not_missed h.requested (heq ▸ hraw))⟩
  rw [hfinal, convert_disk_of_isConverted hbz hne hconv (read_of_disk hdisk) hchk, hcontent]

theorem Served.archived_iff_of_raw (h : Served o w req s name data payload)
    (hcase : caseOf (stripGpg name) = .raw) :
    ArchivedSafely o w req s name payload ↔ NameAgrees req.gzfile name := by
  obtain ⟨s', hfinal, hdisk, hframe⟩ := h.final_disk
  have hbz := bz2filename_requested h.requested
  by_cases hsame : stripGpg name = bz2filename req.gzfile
  · have hcontent := plainContent_of_raw w payload h.plain_requested hcase
      (hsame ▸ fun _ => bz2filename_not_missed req.gzfile)
    have hchk := h.cksum
    rw [hcontent] at hchk
    refine iff_of_true ⟨⟨payload, ?_, h.content, by rw [hsame]⟩,
      conversionSteps_ne hbz h.plain_requested ?_⟩ ⟨?_, ?_⟩
    · rw [hfinal, convert_disk_of_raw hcase (read_of_disk hdisk) hchk, ← hsame, hdisk]
    · rw [hcase]
      intro hfalse
      cases hfalse
    · exact not_tarGpg h.requested (by rw [← hsame, hcase]; decide)
    · rcases h.arrives.name_cases with rfl | ⟨hname, _⟩
      · exact .inr (hsame ▸ fun _ => bz2filename_not_missed req.gzfile)
      · exact .inl hname
  · have heq : stripGpg name = stripGpg req.gzfile := h.plain_cases.resolve_right hsame
    rcases bz2filename_of_raw h.requested (heq ▸ hcase) with hbz | ⟨⟨e, he, hends⟩, _⟩
    · exact absurd (heq.trans hbz.symm) hsame
    · refine iff_of_false ?_ ?_
      · -- the file stays under the name it has, and the final one stays empty
        rintro ⟨⟨data, hdata, hne, _⟩, _⟩
        rw [hfinal, convert_raw_disk_of_ne hcase hsame (heq ▸ bz2filename_length_stripGpg req.gzfile),
          hframe hsame] at hdata
        exact absurd (nonempty_of_disk hdata hne) (by simp [h.absent])
      · rintro ⟨_, hname | hmissed⟩
        · exact hsame (h.arrives.stripGpg_final hname)
        · rw [hmissed e he] at hends
          cases hends

/-- A call that gets a server copy with the right checksum succeeds. After it the archive is there,
made by steps that do not overwrite what they read, exactly if the two rule lists agree on the name. -/
theorem archived_iff (h : Served o w req s name data payload) :
    (downloadFile o w req s).2 = true ∧ (ArchivedSafely o w req s name payload ↔
    NameAgrees req.gzfile name) := by
  constructor
  · obtain ⟨s', hrun, _⟩ := h.reaches_convert
    rw [hrun]
  · cases hcase : caseOf (stripGpg name) with
    | tar => exact h.archived_iff_of_tar hcase
    | zst => exact h.archived_iff_of_zst hcase
    | raw => exact h.archived_iff_of_raw hcase
    | _ => exact h.archived_iff_of_converted (by rw [hcase]; rfl)

end Agreement

section Samples

def sampleContent : Data := [104, 105, 10]

def sampleGzip : Data :=
  [31, 139, 8, 0, 0, 0, 0, 0, 2, 3, 203, 200, 228, 2, 0, 122, 122, 111, 237, 3, 0, 0, 0]

def sampleBzip2 : Data :=
  [66, 90, 104, 57, 49, 65, 89, 38, 83, 89, 29, 94, 89, 213, 0, 0, 0, 193, 0, 0, 16, 0, 96, 32, 0, 33,
    152, 25,
    132, 97, 119, 36, 83, 133, 9, 1, 213, 229, 157, 80]

def sampleZstd : Data := [40, 181, 47, 253, 4, 136, 25, 0, 0, 104, 105, 10, 52, 61, 80, 146]

def sampleSum : Str := "0689e590864cee67b037c8f4c390a75a192bb01160cc9c21374afb12".toList

/-- A server with one file, and the programs as they treat it. -/
def sampleWorld (served : Data) : World where
  altfile := none
  fromMirror := .failed none
  fromOrigin := .complete served
  checkout := none
  manual := false
  unsigned := some sampleContent
  decompress format data :=
    match format with
    | .zst => if data = sampleZstd then sampleContent else data.tail
    | _ => if data = sampleGzip ∨ data = sampleBzip2 then sampleContent else []
  compressor data := if data = sampleContent then sampleZstd else 0 :: data
  fileMatches _ _ := true
  sum _ data := if data = sampleContent then sampleSum else []

theorem sampleWorld_lossless (served data : Data) :
    (sampleWorld served).decompress .zst ((sampleWorld served).compressor data) = data := by
  unfold sampleWorld
  dsimp only
  split_ifs with hdata hzst hzst
  · exact hdata.symm
  · exact absurd rfl hzst
  · exact absurd (congrArg List.head? hzst) (by simp [sampleZstd])
  · rfl

def sampleRequest (file : String) : Request where
  gzfile := "download/mirror/f/".toList ++ file.toList
  location := "http://example.org/files/".toList
  cksum := sampleSum

def sampleShell : Shell := .start fun _ => none

theorem attempted_sample (served : Data) (file : String) :
    Attempted {} (sampleWorld served) (sampleRequest file) sampleShell where
  raw := rfl
  cksumErr := rfl
  extckErr := rfl
  allowed hques :=
    absurd hques (show ¬(plainLocation "http://example.org/files/".toList).head? = some '?' by decide)
  altfile := rfl

theorem cksumChk_sample (served : Data) (origfile : Str) :
    cksumChk {} (sampleWorld served) sampleSum origfile sampleContent = true := by
  have hsum : (if sampleSum = [] then origfile else sampleSum) = sampleSum := if_neg (by decide)
  have hbare : (cksumType sampleSum).2 = sampleSum := by decide +kernel
  simp only [cksumChk, hsum, hbare, sampleWorld, if_true, beq_self_eq_true, Bool.or_true]

theorem served_sample {file : String} {served payload : Data} (hserved : served ≠ [])
    (hunsigned : if endsWith (sampleRequest file).gzfile ".gpg".toList then some sampleContent = some payload
      else payload = served)
    (hweb : urlKind (makeUrl (askedLocation (sampleRequest file).location) (sampleRequest file).gzfile) =
    .web)
    (hcontent : payload ≠ [])
    (hplain : plainContent (sampleWorld served) (stripGpg (sampleRequest file).gzfile) payload =
    sampleContent) :
    Served {} (sampleWorld served) (sampleRequest file) sampleShell (sampleRequest file).gzfile served payload where
  requested := Requested.append (f := "download/".toList) (List.prefix_refl _) _
  absent := rfl
  unlocked := rfl
  checkonly := rfl
  arrives := .origin (attempted_sample served file) (.inl (ite_self none)) (.inl hweb) rfl rfl
  something := hserved
  unsigned := hunsigned
  content := hcontent
  cksum := by
    rw [hplain]
    exact cksumChk_sample served _
  compressed x := by
    unfold sampleWorld
    dsimp only
    split_ifs
    · decide
    · exact List.cons_ne_nil 0 x
  lossless := sampleWorld_lossless served

theorem archived_iff_sample :
    ArchivedSafely {} (sampleWorld sampleGzip) (sampleRequest "foo-1.0.tar.gz") sampleShell
      (sampleRequest "foo-1.0.tar.gz").gzfile sampleGzip :=
  (archived_iff (served_sample (by decide) (by decide) (by decide +kernel) (by decide)
    (by decide +kernel))).2.mpr
    (by decide +kernel)

/-- A tar ball ending in `.tbz` stays under that name, and of a signed one the compressor reads an
emptied file. -/
theorem names_disagree :
    (∃ payload, Served {} (sampleWorld sampleBzip2) (sampleRequest "foo-1.0.tbz") sampleShell
        (sampleRequest "foo-1.0.tbz").gzfile sampleBzip2 payload ∧
      ¬ArchivedSafely {} (sampleWorld sampleBzip2) (sampleRequest "foo-1.0.tbz") sampleShell
        (sampleRequest "foo-1.0.tbz").gzfile payload) ∧
    ∃ payload, Served {} (sampleWorld [133, 1]) (sampleRequest "foo-1.0.tar.gpg") sampleShell
        (sampleRequest "foo-1.0.tar.gpg").gzfile [133, 1] payload ∧
      ¬ArchivedSafely {} (sampleWorld [133, 1]) (sampleRequest "foo-1.0.tar.gpg") sampleShell
        (sampleRequest "foo-1.0.tar.gpg").gzfile payload := by
  have htbz : Served {} (sampleWorld sampleBzip2) (sampleRequest "foo-1.0.tbz") sampleShell
      (sampleRequest "foo-1.0.tbz").gzfile sampleBzip2 sampleBzip2 :=
    served_sample (by decide) (by decide) (by decide +kernel) (by decide) (by decide +kernel)
  have hgpg : Served {} (sampleWorld [133, 1]) (sampleRequest "foo-1.0.tar.gpg") sampleShell
      (sampleRequest "foo-1.0.tar.gpg").gzfile [133, 1] sampleContent :=
    served_sample (by decide) (by decide) (by decide +kernel) (by decide) (by decide +kernel)
  refine ⟨⟨_, htbz, ?_⟩, ⟨_, hgpg, ?_⟩⟩
  · rw [htbz.archived_iff_of_raw (by decide +kernel)]
    decide +kernel
  · rw [hgpg.archived_iff_of_tar (by decide +kernel)]
    decide +kernel

end Samples

end T2SDE.Download
