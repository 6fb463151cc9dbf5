import T2SDE.DownloadFile

namespace T2SDE.Download

open Text

/-- The words of a `[D]` line, as `read cksum file url` gets them. -/
structure Line where
  cksum : Str
  file : Str
  url : Str
  deriving DecidableEq

/-- `source_file` outside of Build-Pkg. -/
def sourceFile (line : Line) : Str :=
  "download/".toList ++ (if line.url.head? = some '-' then "local".toList else "mirror".toList) ++
    '/' :: line.file.take 1 ++ '/' :: line.file

/-- The arguments with which the loops over `[D]` lines call `download_file`. -/
def Line.request (line : Line) : Request := ⟨sourceFile line, line.url, line.cksum⟩

end T2SDE.Download
