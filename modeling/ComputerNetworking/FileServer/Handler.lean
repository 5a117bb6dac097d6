import ComputerNetworking.FileServer.Paths

/-!
# Answering a GET request

The GET branch of `HttpFileServer.run`: the page or head each kind of target
gets, what `NetworkUtil` writes to the socket for it, and the field
`httpResponse`, which lives as long as the connection.
-/

set_option autoImplicit false

namespace ComputerNetworking.FileServer

open ComputerNetworking.Foundations

/-! ## What the handler finds -/

/-- `isFile` and `isDirectory` of an entry of a listing. -/
inductive EntryKind where
  | file
  | directory
  | other
  deriving DecidableEq, Repr

/-- An entry of `listFiles()`. -/
structure Entry where
  name : Text
  kind : EntryKind
  deriving DecidableEq, Repr

/-- What exists under a path: a directory, whose listing may be `null`, a regular file,
which a stream may fail to open, or neither. -/
inductive Node where
  | directory (entries : Option (List Entry))
  | file (bytes : List UInt8) (readable : Bool)
  | special
  deriving DecidableEq, Repr

/-- `new Date()` as a string: printable ascii characters. -/
abbrev DateText := { t : Text // Printable t }

/-- A date. -/
def newYear : DateText := ⟨"Sat Jan 01 00:00:00 GMT 2022".toList, by decide⟩

/-- What one GET finds: the file system, the time, and whether its log file can be
opened. -/
structure Env where
  fs : Text → Option Node
  date : DateText
  logOpens : Bool

/-- Exceptions that leave the loop of `run`. -/
inductive JavaException where
  | arrayIndexOutOfBounds
  | stringIndexOutOfBounds
  | nullPointer
  | negativeArraySize
  | fileNotFound
  deriving DecidableEq, Repr

/-! ## Heads and pages -/

/-- `"\r\n"`. -/
def crlf : Text := ['\r', '\n']

/-- Header lines and the blank line behind them. -/
def renderHead (lines : List Text) : Text := lines.flatMap (· ++ crlf) ++ crlf

/-- `"Content-Length: " + n`. -/
def lengthLine (n : Nat) : Text := "Content-Length: ".toList ++ Nat.toDigits 10 n

/-- The header lines of `httpResponse` in the branches of the GET request. -/
def responseLines (status contentType : String) (date : DateText) (length : Nat)
    (more : List Text) : List Text :=
  [status.toList, "Server: Java HTTP Server: 1.0".toList, "Date: ".toList ++ date.1,
    "Content-Type: ".toList ++ contentType.toList, lengthLine length] ++ more

/-- The head of a page. -/
def pageHead (date : DateText) (page : Text) : Text :=
  renderHead (responseLines "HTTP/1.1 200 OK" "text/html" date (utf16Length page) [])

/-- The head the image branch stores and logs. -/
def imageHead (date : DateText) (length : Nat) : Text :=
  renderHead (responseLines "HTTP/1.1 200 OK" "image/png" date length [])

/-- The head of a download. -/
def downloadHead (date : DateText) (length : Nat) : Text :=
  renderHead (responseLines "HTTP/1.1 200 OK" "application/force-download" date length
    ["Content-Disposition: attachment".toList])

/-- The head of a missing target. -/
def errorHead (date : DateText) (page : Text) : Text :=
  renderHead (responseLines "HTTP/1.1 404 NOT FOUND" "text/html" date (utf16Length page) [])

/-- The lines `writeImageFileOnBrowser` sends before the bytes of an image. -/
def sentImageLines (length : Nat) : List Text :=
  ["HTTP/1.1 200 OK".toList, "Content-Type: image/png".toList, lengthLine length]

/-- What every page begins with. -/
def pageStart : Text :=
  ("<html>\n" ++
    "<head>\n" ++
    "<meta http-equiv=\"Content-Type\" content=\"text/html; charset=UTF-8\">\n" ++
    "<link rel=\"icon\" href=\"data:,\">\n" ++
    "</head>\n" ++
    "<body>\n").toList

/-- What the pages of directories and text files end with. -/
def pageEnd : Text := "\n</body>\n</html>".toList

/-- The line of an entry in the page of its directory. -/
def entryLink (path : Text) (e : Entry) : Text :=
  match e.kind with
  | .file => "<a href=\"".toList ++ path ++ e.name ++ "\">".toList ++ e.name ++ "</a><br>\n".toList
  | .directory =>
      "<a href=\"".toList ++ path ++ e.name ++ "/\"><b><i>".toList ++ e.name ++
        "</i></b></a><br>\n".toList
  | .other => []

/-- The page of a directory. -/
def directoryPage (path : Text) (entries : List Entry) : Text :=
  pageStart ++ entries.flatMap (entryLink path) ++ pageEnd

/-- The page of a text file. A file that does not open leaves the page without lines. -/
def textPage (cs : Charset) (bytes : List UInt8) (readable : Bool) : Text :=
  let lines := if readable then scannerLines (cs.decodeScanned bytes) else []
  pageStart ++ lines.flatMap (· ++ "<br>\n".toList) ++ pageEnd

/-- The page of a missing target. -/
def errorPage : Text := pageStart ++ "Error 404 Not Found\n</body>\n</html>".toList

/-- `data` of the image branch: an array of `(int) fileContent.length()` bytes, filled from
the file if it opens. There is none of negative length. -/
def imageData (bytes : List UInt8) (readable : Bool) : Option (List UInt8) :=
  let length := javaInt bytes.length
  if length < 0 then none
  else if readable then some (bytes.take length.toNat)
  else some (List.replicate length.toNat 0)

/-! ## The branches -/

/-- The branch of the GET request that a target takes. -/
inductive Target where
  | directory (entries : List Entry)
  | textFile (bytes : List UInt8) (readable : Bool)
  | image (data : List UInt8)
  | download (bytes : List UInt8) (readable : Bool)
  | special
  | missing
  deriving DecidableEq, Repr

/-- The target of a request path. -/
def findTarget (env : Env) (path : Text) : Except JavaException Target :=
  match env.fs (absolutePath path) with
  -- the loop over `listFiles()` meets `null`
  | some (.directory none) => .error .nullPointer
  | some (.directory (some entries)) => .ok (.directory entries)
  | some (.file bytes readable) =>
      match extension path with
      -- `split("\\.")` of dots only has no element `length-1`
      | none => .error .arrayIndexOutOfBounds
      | some fileExt =>
          if fileExt = "txt".toList then .ok (.textFile bytes readable)
          else if fileExt = "jpg".toList ∨ fileExt = "png".toList ∨ fileExt = "jpeg".toList then
            match imageData bytes readable with
            | none => .error .negativeArraySize
            | some data => .ok (.image data)
          else .ok (.download bytes readable)
  | some .special => .ok .special
  | none => .ok .missing

/-- What a GET leaves: the field `httpResponse`, the bytes written to the socket and
the log file. -/
structure Reply where
  httpResponse : Text
  sent : List UInt8
  log : Text
  deriving DecidableEq

/-- `httpResponse` after the branch of a target. -/
def newResponse (cs : Charset) (date : DateText) (httpResponse path : Text) : Target → Text
  | .directory entries => pageHead date (directoryPage path entries)
  | .textFile bytes readable => pageHead date (textPage cs bytes readable)
  | .image data => imageHead date data.length
  | .download bytes _ => downloadHead date bytes.length
  | .special => httpResponse
  -- `+=` where the other branches have `=`
  | .missing => httpResponse ++ errorHead date errorPage

/-- The bytes the branch of a target writes, after it has set `httpResponse`. -/
def sentBytes (cs : Charset) (httpResponse path : Text) : Target → List UInt8
  | .directory entries => cs.encode httpResponse ++ cs.encode (directoryPage path entries)
  | .textFile bytes readable =>
      cs.encode (httpResponse ++ crlf) ++ cs.encode (textPage cs bytes readable)
  | .image data => cs.encode (renderHead (sentImageLines data.length)) ++ data
  | .download bytes readable =>
      cs.encode (httpResponse ++ crlf) ++ (if readable then bytes else [])
  | .special => []
  -- the page itself is not written
  | .missing => cs.encode (httpResponse ++ crlf)

/-- The status line and the headers that the branch of a target sends, after it has set
`httpResponse`. -/
def sentHead (httpResponse : Text) : Target → Text
  | .directory _ => httpResponse
  | .textFile _ _ => httpResponse
  | .image data => renderHead (sentImageLines data.length)
  | .download _ _ => httpResponse
  | .special => []
  | .missing => httpResponse

/-- The line end that some branches send behind the head. -/
def lineBehind : Target → Text
  | .directory _ => []
  | .textFile _ _ => crlf
  | .image _ => []
  | .download _ _ => crlf
  | .special => []
  | .missing => crlf

/-- The bytes that the branch of a target sends as the body. -/
def bodyBytes (cs : Charset) (path : Text) : Target → List UInt8
  | .directory entries => cs.encode (directoryPage path entries)
  | .textFile bytes readable => cs.encode (textPage cs bytes readable)
  | .image data => data
  | .download bytes readable => if readable then bytes else []
  | .special => []
  | .missing => []

/-- The parts make up what is sent. -/
theorem sentBytes_eq (cs : Charset) (httpResponse path : Text) (target : Target) :
    sentBytes cs httpResponse path target =
      cs.encode (sentHead httpResponse target ++ lineBehind target) ++
        bodyBytes cs path target := by
  cases target with
  | directory entries =>
      rw [lineBehind, List.append_nil]
      rfl
  | textFile bytes readable => rfl
  | image data =>
      rw [lineBehind, List.append_nil]
      rfl
  | download bytes readable => rfl
  | special => rfl
  | missing => exact (List.append_nil _).symm

/-- What the log file of a request begins with. -/
def logStart (httpRequest : Text) : Text :=
  httpRequest ++ "\n".toList ++ "--------------------------".toList ++ "\n".toList

/-- The log file: the branches that answer append `httpResponse`. -/
def logText (httpRequest httpResponse : Text) : Target → Text
  | .special => logStart httpRequest
  | _ => logStart httpRequest ++ httpResponse

/-- The request path and the target of a request line: what the GET branch does before it
answers. -/
def requestTarget (env : Env) (httpRequest : Text) : Except JavaException (Text × Target) :=
  if env.logOpens = false then .error .fileNotFound
  else
    match requestPath httpRequest with
    -- a line without a second field
    | none => .error .arrayIndexOutOfBounds
    | some path =>
        match findTarget env path with
        | .error e => .error e
        | .ok target => .ok (path, target)

/-- What the branch of a target leaves. -/
def answer (cs : Charset) (date : DateText) (httpResponse httpRequest path : Text)
    (target : Target) : Reply :=
  let response := newResponse cs date httpResponse path target
  ⟨response, sentBytes cs response path target, logText httpRequest response target⟩

/-- The GET branch of `run`. -/
def handleGet (cs : Charset) (env : Env) (httpResponse httpRequest : Text) :
    Except JavaException Reply :=
  match requestTarget env httpRequest with
  | .error e => .error e
  | .ok (path, target) => .ok (answer cs env.date httpResponse httpRequest path target)

section Facts

variable {cs : Charset} {env env' : Env} {httpResponse httpRequest path : Text} {target : Target}

theorem handleGet_of_target (h : requestTarget env httpRequest = .ok (path, target)) :
    handleGet cs env httpResponse httpRequest =
      .ok (answer cs env.date httpResponse httpRequest path target) := by
  rw [handleGet, h]

/-- What the GET branch has found when it answers. -/
theorem of_requestTarget (h : requestTarget env httpRequest = .ok (path, target)) :
    requestPath httpRequest = some path ∧ findTarget env path = .ok target := by
  rw [requestTarget] at h
  split at h
  · cases h
  · split at h
    · cases h
    · next found hpath =>
        split at h
        · cases h
        · next target' hfind =>
            cases h
            exact ⟨hpath, hfind⟩

/-- The handler looks at one file only, the one of the request path. -/
theorem requestTarget_congr (httpRequest : Text) (hlog : env.logOpens = env'.logOpens)
    (hfs : ∀ path, requestPath httpRequest = some path →
      env.fs (absolutePath path) = env'.fs (absolutePath path)) :
    requestTarget env httpRequest = requestTarget env' httpRequest := by
  rw [requestTarget, requestTarget, hlog]
  cases hpath : requestPath httpRequest with
  | none => rfl
  | some path =>
      have hfind : findTarget env path = findTarget env' path := by
        rw [findTarget, findTarget, hfs path hpath]
      simp only [hfind]

/-- Only the branch of a missing target keeps what the connection has stored before. -/
theorem newResponse_eq_of_ne_missing (hmissing : target ≠ .missing) (hspecial : target ≠ .special)
    (date : DateText) (old old' : Text) :
    newResponse cs date old path target = newResponse cs date old' path target := by
  cases target with
  | directory entries => rfl
  | textFile bytes readable => rfl
  | image data => rfl
  | download bytes readable => rfl
  | special => exact absurd rfl hspecial
  | missing => exact absurd rfl hmissing

end Facts

end ComputerNetworking.FileServer
