import T2SDE.Bz2Filename
import T2SDE.Lib.Files

namespace T2SDE.Download

open Text Endings Disk

/-- How a file found in another directory is put in place. -/
inductive AltCopy
  | link
  | copy
  | move
  deriving DecidableEq

/-- The options of a run; `mirror` is the mirror URL, if there is one to use. -/
structure Options where
  nocheck : Bool := false
  checkonly : Bool := false
  tryques : Bool := false
  altcopy : AltCopy := .link
  mirror : Option Str := none
  pid : Str := ['1']

/-- The arguments of `download_file`. -/
structure Request where
  gzfile : Str
  location : Str
  cksum : Str

/-- What `curl` brings: an error with what it leaves behind, or all of the file. -/
inductive Transfer
  | failed (left : Option Data)
  | complete (data : Data)

/-- What the programs and servers around one call do. -/
structure World where
  /-- the file that `find` or the old directory layout offers -/
  altfile : Option Str
  fromMirror : Transfer
  fromOrigin : Transfer
  /-- the tar ball of a checkout that worked -/
  checkout : Option Data
  /-- the file is in the home directory or in the alternative one -/
  manual : Bool
  /-- what `gpg` leaves -/
  unsigned : Option Data
  decompress : Format → Data → Data
  compressor : Data → Data
  fileMatches : Str → Data → Bool
  sum : Str → Data → Str

/-- A shell that runs commands; `downloaderror` is the variable. -/
structure Shell where
  disk : Tree
  ops : List Op
  downloaderror : Bool

def Shell.start (disk : Tree) : Shell := ⟨disk, [], false⟩

def Shell.exec (s : Shell) (op : Op) : Shell := { s with disk := op.run s.disk, ops := s.ops ++ [op] }

def Shell.setError (s : Shell) : Shell := { s with downloaderror := true }

/-- `[ -s file ]` -/
def Shell.nonempty (s : Shell) (file : Str) : Bool := (s.disk file).any (· != [])

/-- `[ -f file ]` -/
def Shell.isFile (s : Shell) (file : Str) : Bool := (s.disk file).isSome

def Shell.read (s : Shell) (file : Str) : Data := (s.disk file).getD []

/-- `tr / -` -/
def flatten (path : Str) : Str := path.map fun c => if c = '/' then '-' else c

def baseName (path : Str) : Str := (path.reverse.takeWhile (· != '/')).reverse

/-- `${path%/*}` -/
def dirName (path : Str) : Str := if '/' ∈ path then ((path.reverse.dropWhile (· != '/')).drop 1).reverse
    else path

/-- The checksum program and the bare checksum of a `{algorithm}` prefix or of a length. -/
def cksumType (cksum : Str) : Str × Str :=
  if '}' ∈ cksum then
    let ck := ((cksum.reverse.dropWhile (· != '}')).drop 1).reverse
    let ck := if ck.head? = some '{' then ck.tail else ck
    let tag := '{' :: ck ++ ['}']
    (ck, if tag.isPrefixOf cksum then cksum.drop tag.length else cksum)
  else if cksum.length = 56 then ("sha224".toList, cksum)
  else if cksum.length = 64 then ("sha256".toList, cksum)
  else ("ck".toList, cksum)

/-- The test of `cksum_chk`. -/
def cksumChk (o : Options) (w : World) (cksum origfile : Str) (data : Data) : Bool :=
  -- the checksum is not quoted in the calls: without one the file name takes its place
  let y := if cksum = [] then origfile else cksum
  o.nocheck || y.all (· == '0') || y.all (· == 'X') || w.sum (cksumType y).1 data == (cksumType y).2

inductive UrlKind
  | manual
  | web
  | checkout
  | unrecognized
  deriving DecidableEq

def protocolOf : Str → Str
  | ':' :: '/' :: '/' :: _ => []
  | c :: url => c :: protocolOf url
  | [] => []

def isTransport (name protocol : Str) : Bool := protocol == name || (name ++ ['+']).isPrefixOf protocol

def urlKind (url : Str) : UrlKind :=
  if "manual://".toList.isPrefixOf url then .manual
  else if (["http://", "https://", "ftp://", "file://"].map String.toList).any (·.isPrefixOf url) then .web
  else
    let protocol := protocolOf url
    if protocol == "cvs".toList || (["svn", "git", "hg"].map String.toList).any (isTransport · protocol) then
      .checkout
    else .unrecognized

/-- The URL that `download_file_now` creates. -/
def makeUrl (location gzfile : Str) : Str :=
  if "manual://".toList.isPrefixOf location then location
  else if location.head? = some '!' then location.tail
  else dirName location ++ '/' :: baseName gzfile

def incomplete (file : Str) : Str := file ++ ".incomplete".toList
def cksumErr (file : Str) : Str := file ++ ".cksum-err".toList
def extckErr (file : Str) : Str := file ++ ".extck-err".toList

/-- The renaming of `cksum_chk`, which has no file name without a checksum. -/
def Shell.markBad (s : Shell) (cksum origfile : Str) : Shell :=
  if cksum = [] then s else s.exec (.move origfile (cksumErr origfile))

/-- The part of `download_file_now` around `curl`. -/
def curl (w : World) (transfer : Transfer) (gzfile : Str) (s : Shell) : Shell × Bool :=
  match transfer with
  | .failed none => (s, false)
  | .failed (some left) => (s.exec (.write (incomplete gzfile) left), false)
  | .complete data =>
    let s := s.exec (.write (incomplete gzfile) data)
    if data = [] then (s, false)
    else if w.fileMatches gzfile data then (s.exec (.move (incomplete gzfile) gzfile), true)
    else (s.exec (.move (incomplete gzfile) (extckErr gzfile)), true)

/-- Where a checkout packs its tar ball. -/
def checkoutFile (protocol bzfile : Str) : Str :=
  "src/down.".toList ++ protocol ++ "dir.".toList ++ flatten bzfile ++ '/' :: baseName bzfile

def downloadFileNow (w : World) (transfer : Transfer) (location gzfile bzfile : Str) (s : Shell) :
    Shell × Bool :=
  let url := makeUrl location gzfile
  match urlKind url with
  | .manual => if w.manual then curl w transfer gzfile s else (s, false)
  | .web => curl w transfer gzfile s
  | .checkout =>
    match w.checkout with
    | none => (s, false)
    | some data =>
      let tarname := checkoutFile (protocolOf url) bzfile
      ((s.exec (.write tarname data)).exec (.move tarname bzfile), true)
  | .unrecognized => (s, false)

/-- The copy of a file found in another directory. -/
def altCopy (o : Options) (altfile bzfile : Str) (s : Shell) : Shell :=
  match o.altcopy with
  | .link => s.exec (.link altfile bzfile)
  | .copy => if s.isFile altfile then s.exec (.write bzfile (s.read altfile)) else s
  | .move => s.exec (.move altfile bzfile)

/-- The mirror, if it is to be used for a file. -/
def useMirror (o : Options) (bzfile : Str) : Option Str :=
  if "download/mirror/".toList.isPrefixOf bzfile then o.mirror else none

/-- The transfer of a file, from the mirror or the original location, and the name it has got. -/
def transferFile (o : Options) (w : World) (location gzfile bzfile : Str) (s : Shell) : Shell × Str :=
  match useMirror o bzfile with
  | some mirror =>
    let first := downloadFileNow w w.fromMirror
      ('!' :: mirror ++ '/' :: bzfile.drop "download/mirror/".length) bzfile bzfile s
    if first.2 then (first.1, bzfile)
    else
      let second := downloadFileNow w w.fromOrigin location gzfile bzfile first.1
      (if second.2 then second.1 else second.1.setError, gzfile)
  -- without a mirror a failure is not recorded: the source lacks a `||` there
  | none => ((downloadFileNow w w.fromOrigin location gzfile bzfile s).1, gzfile)

/-- The location without its `-` prefix. -/
def plainLocation (location : Str) : Str := if location.head? = some '-' then location.tail else location

/-- The part of `download_file` up to a file that is there to be tested; `none` is an early return. -/
def obtain (o : Options) (w : World) (req : Request) (s : Shell) : Shell × Option Str :=
  let bzfile := bz2filename req.gzfile
  let location := plainLocation req.location
  if o.checkonly then
    if !s.isFile bzfile || req.cksum = [] || req.cksum.head? = some 'X' || req.cksum = ['0'] then (s, none)
    else (s, some bzfile)
  else if s.nonempty req.gzfile then (s, some req.gzfile)
  else if s.nonempty (cksumErr req.gzfile) || s.nonempty (extckErr req.gzfile) then (s, none)
  else if location.head? = some '?' && !o.tryques then (s, none)
  else
    let location := if location.head? = some '?' then location.tail else location
    let got := match w.altfile with
      | some altfile => (altCopy o altfile bzfile s, bzfile)
      | none => transferFile o w location req.gzfile bzfile s
    if got.1.nonempty got.2 then (got.1, some got.2) else (got.1, none)

/-- The removal of a signature; `none` is the return after "unsigning failed". -/
def unsign (w : World) (gzfile : Str) (s : Shell) : Shell × Option Str :=
  if endsWith gzfile ".gpg".toList then
    let plain := stripGpg gzfile
    let s := match w.unsigned with
      | some data => if s.isFile gzfile then s.exec (.write plain data) else s
      | none => s
    if s.isFile plain then (s, some plain) else (s, none)
  else (s, some gzfile)

/-- `src/down.$$.dat` -/
def datFile (o : Options) : Str := "src/down.".toList ++ o.pid ++ ".dat".toList

/-- The `case` over the file name: the conversion to the final file and the checksum test. -/
def convert (o : Options) (w : World) (cksum bzfile gzfile : Str) (s : Shell) : Shell :=
  match caseOf gzfile with
  | .tar =>
    if cksumChk o w cksum gzfile (s.read gzfile) then
      -- the shell empties the final file before the compressor reads
      let input := if gzfile = bzfile then [] else s.read gzfile
      (s.exec (.write bzfile (w.compressor input))).exec (.remove gzfile)
    else s.markBad cksum gzfile
  | .zst =>
    let s := if o.nocheck then s
      else
        let dat := w.decompress .zst (s.read bzfile)
        let s := s.exec (.write (datFile o) dat)
        if cksumChk o w cksum bzfile dat then s else (s.markBad cksum bzfile).setError
    s.exec (.remove (datFile o))
  | .raw =>
    if cksumChk o w cksum gzfile (s.read gzfile) then s else (s.markBad cksum gzfile).setError
  | format =>
    let dat := w.decompress format (s.read gzfile)
    let s := s.exec (.write (datFile o) dat)
    let s := if cksumChk o w cksum gzfile dat then
        (s.exec (.write bzfile (w.compressor dat))).exec (.remove gzfile)
      else s.markBad cksum gzfile
    s.exec (.remove (datFile o))

def lockFile (bzfile : Str) : Str := "src/down.lockfile.".toList ++ flatten bzfile

/-- `download_file`: the shell after it and whether it returns 0. -/
def downloadFile (o : Options) (w : World) (req : Request) (s : Shell) : Shell × Bool :=
  let bzfile := bz2filename req.gzfile
  let lkfile := lockFile bzfile
  if s.nonempty bzfile && !o.checkonly then (s, true)
  else if s.nonempty lkfile then (s, true)
  else
    let s := s.exec (.write lkfile ((o.pid ++ ['\n']).map fun c => c.val.toUInt8))
    match obtain o w req s with
    | (s, none) => (s.exec (.remove lkfile), false)
    | (s, some gzfile) =>
      match unsign w gzfile s with
      | (s, none) => (s.exec (.remove lkfile), false)
      | (s, some gzfile) => ((convert o w req.cksum bzfile gzfile s).exec (.remove lkfile), true)

end T2SDE.Download
